import Archarch.Foundations.ByteMemory
import Archarch.Foundations.EndAroundCarry

/- ip_checksum and build_icmp_echo of main.c over a memory of bytes. The frame and the addresses
   that go into it are pointers into the one memory. -/
namespace Archarch.Network
open ByteMemory

def write8 (m : Mem) (p v : Nat) : Mem := Function.update m p (BitVec.ofNat 8 v)

def memcpy8 (m : Mem) (dst src : Nat) : Nat → Mem
  | 0 => m
  | n + 1 =>
    let copied := memcpy8 m dst src n
    Function.update copied (dst + n) (copied (src + n))

def write16be (m : Mem) (p v : Nat) : Mem := write8 (write8 m p (v / 2 ^ 8)) (p + 1) (v % 2 ^ 8)

def read16be (m : Mem) (p : Nat) : Nat := (m p).toNat * 2 ^ 8 + (m (p + 1)).toNat

/-- The loop over the words of the data; the sum has 32 bits. -/
def checksumLoop (m : Mem) (data len i sum : Nat) : Nat :=
  if i + 1 < len then checksumLoop m data len (i + 2) ((sum + read16be m (data + i)) % 2 ^ 32)
  else sum
termination_by len - i

def foldCarries (sum : Nat) : Nat :=
  if sum / 2 ^ 16 = 0 then sum else foldCarries ((sum % 2 ^ 16 + sum / 2 ^ 16) % 2 ^ 32)
termination_by sum
decreasing_by
  exact Nat.lt_of_le_of_lt (Nat.mod_le _ _) (EndAroundCarry.carry_decreases (by decide) (by omega))

def ipChecksum (m : Mem) (data len : Nat) : Nat :=
  let sum := checksumLoop m data len 0 0
  let sum :=
    if len % 2 = 1 then (sum + (m (data + (len - 1))).toNat * 2 ^ 8) % 2 ^ 32 else sum
  (2 ^ 32 - 1 - foldCarries sum) % 2 ^ 16

def pingPayload (m : Mem) (p : Nat) : Nat → Mem
  | 0 => m
  | i + 1 => write8 (pingPayload m p i) (p + i) (0x41 + i % 26)

/-- The memory with the frame, and the length of the frame. -/
def buildIcmpEcho (m : Mem) (frame srcMac dstMac srcIp dstIp seq : Nat) : Mem × Nat :=
  let off := 0
  let m := memcpy8 m (frame + off) dstMac 6
  let off := off + 6
  let m := memcpy8 m (frame + off) srcMac 6
  let off := off + 6
  let m := write16be m (frame + off) 0x0800
  let off := off + 2
  let ipStart := off
  let m := write8 m (frame + off) 0x45
  let off := off + 1
  let m := write8 m (frame + off) 0x00
  let off := off + 1
  let totalLenOff := off
  let off := off + 2
  let m := write16be m (frame + off) 0x1234
  let off := off + 2
  let m := write16be m (frame + off) 0x0000
  let off := off + 2
  let m := write8 m (frame + off) 64
  let off := off + 1
  let m := write8 m (frame + off) 1
  let off := off + 1
  let ipCsumOff := off
  let off := off + 2
  let m := memcpy8 m (frame + off) srcIp 4
  let off := off + 4
  let m := memcpy8 m (frame + off) dstIp 4
  let off := off + 4
  let icmpStart := off
  let m := write8 m (frame + off) 8
  let off := off + 1
  let m := write8 m (frame + off) 0
  let off := off + 1
  let icmpCsumOff := off
  let off := off + 2
  let m := write16be m (frame + off) 0x0001
  let off := off + 2
  let m := write16be m (frame + off) seq
  let off := off + 2
  let m := pingPayload m (frame + off) 32
  let off := off + 32
  let ipTotal := (off - ipStart) % 2 ^ 16
  let m := write16be m (frame + totalLenOff) ipTotal
  let m := write16be m (frame + ipCsumOff) 0
  let ipcsum := ipChecksum m (frame + ipStart) 20
  let m := write16be m (frame + ipCsumOff) ipcsum
  let icmpLen := off - icmpStart
  let m := write16be m (frame + icmpCsumOff) 0
  let icmpcsum := ipChecksum m (frame + icmpStart) icmpLen
  let m := write16be m (frame + icmpCsumOff) icmpcsum
  (m, off)

def wordSum (m : Mem) (data n : Nat) : Nat := ∑ j ∈ Finset.range n, read16be m (data + 2 * j)

section Words
variable {m k : Mem} {p q v data n i len : Nat}

theorem read16be_lt (m : Mem) (p : Nat) : read16be m p < 2 ^ 16 := by
  have high := (m p).isLt
  have low := (m (p + 1)).isLt
  simp only [read16be]
  omega

theorem read16be_congr (high : k p = m p) (low : k (p + 1) = m (p + 1)) :
    read16be k p = read16be m p := by
  simp only [read16be, high, low]

theorem write16be_outside (outside : q < p ∨ p + 2 ≤ q) : write16be m p v q = m q := by
  have first : q ≠ p := by omega
  have second : q ≠ p + 1 := by omega
  simp only [write16be, write8, Function.update_of_ne second, Function.update_of_ne first]

theorem read16be_write16be (fits : v < 2 ^ 16) : read16be (write16be m p v) p = v := by
  have other : p ≠ p + 1 := by omega
  simp only [read16be, write16be, write8, Function.update_of_ne other, Function.update_self,
    BitVec.toNat_ofNat]
  omega

theorem read16be_write16be_apart (apart : q + 2 ≤ p ∨ p + 2 ≤ q) :
    read16be (write16be m p v) q = read16be m q := by
  apply read16be_congr
  · exact write16be_outside (by omega)
  · exact write16be_outside (by omega)

theorem word_sum_le (m : Mem) (data n : Nat) : wordSum m data n ≤ n * (2 ^ 16 - 1) := by
  induction n with
  | zero => simp [wordSum]
  | succ n ih =>
    have word := read16be_lt m (data + 2 * n)
    have one_more : wordSum m data (n + 1) = wordSum m data n + read16be m (data + 2 * n) :=
      Finset.sum_range_succ _ _
    omega

theorem word_sum_congr (same : ∀ x, data ≤ x → x < data + 2 * n → k x = m x) :
    wordSum k data n = wordSum m data n := by
  apply Finset.sum_congr rfl
  intro j member
  have inside := Finset.mem_range.mp member
  apply read16be_congr
  · exact same _ (by omega) (by omega)
  · exact same _ (by omega) (by omega)

end Words

section Checksum
variable {m k : Mem} {data len n i off : Nat}

theorem fold_carries_eq {sum : Nat} (fits : sum < 2 ^ 32) :
    foldCarries sum = EndAroundCarry.fold (2 ^ 16) sum := by
  fun_induction foldCarries sum with
  | case1 sum small =>
    rw [EndAroundCarry.fold, if_neg (by omega)]
  | case2 sum large ih =>
    have exact_sum : (sum % 2 ^ 16 + sum / 2 ^ 16) % 2 ^ 32 = sum % 2 ^ 16 + sum / 2 ^ 16 :=
      Nat.mod_eq_of_lt (by omega)
    rw [exact_sum] at ih
    rw [exact_sum, EndAroundCarry.fold, if_pos (by omega)]
    exact ih (by omega)

theorem checksum_loop_eq (few : n ≤ 32767) (left : Nat) (reach : i + left = n) :
    checksumLoop m data (2 * n) (2 * i) (wordSum m data i) = wordSum m data n := by
  induction left generalizing i with
  | zero =>
    have done : i = n := by omega
    subst done
    rw [checksumLoop, if_neg (by omega)]
  | succ left ih =>
    have step : wordSum m data i + read16be m (data + 2 * i) = wordSum m data (i + 1) :=
      (Finset.sum_range_succ _ _).symm
    have more : 2 * i + 1 < 2 * n := by omega
    have bound := word_sum_le m data (i + 1)
    have fits : wordSum m data (i + 1) < 2 ^ 32 := by omega
    rw [checksumLoop, if_pos more, step, Nat.mod_eq_of_lt fits]
    exact ih (i := i + 1) (by omega)

theorem ip_checksum_eq (m : Mem) (data : Nat) (few : n ≤ 32767) :
    ipChecksum m data (2 * n) = 2 ^ 16 - 1 - EndAroundCarry.fold (2 ^ 16) (wordSum m data n) := by
  have start : wordSum m data 0 = 0 := by simp [wordSum]
  have loop : checksumLoop m data (2 * n) (2 * 0) (wordSum m data 0) = wordSum m data n :=
    checksum_loop_eq few n (by omega)
  rw [start, Nat.mul_zero] at loop
  have bound := word_sum_le m data n
  have below := EndAroundCarry.fold_lt (b := 2 ^ 16) (by decide) (wordSum m data n)
  have whole : 2 * n % 2 ≠ 1 := by omega
  simp only [ipChecksum, loop, if_neg whole]
  rw [fold_carries_eq (by omega)]
  omega

theorem ip_checksum_lt (m : Mem) (data len : Nat) : ipChecksum m data len < 2 ^ 16 :=
  Nat.mod_lt _ (by decide)

theorem ip_checksum_congr (data : Nat) (few : n ≤ 32767)
    (same : ∀ x, data ≤ x → x < data + 2 * n → k x = m x) :
    ipChecksum k data (2 * n) = ipChecksum m data (2 * n) := by
  rw [ip_checksum_eq k data few, ip_checksum_eq m data few, word_sum_congr same]

theorem word_sum_filled {v : Nat} (inside : i < n) (zero : read16be m (data + 2 * i) = 0)
    (fits : v < 2 ^ 16) : wordSum (write16be m (data + 2 * i) v) data n = wordSum m data n + v := by
  have filled := EndAroundCarry.sum_update_zero (n := n) (i := i)
    (f := fun j => read16be m (data + 2 * j))
    (g := fun j => read16be (write16be m (data + 2 * i) v) (data + 2 * j)) inside zero
    (fun j other => read16be_write16be_apart (by omega))
  rw [read16be_write16be fits] at filled
  exact filled

theorem filled_in_verifies (few : n ≤ 32767) (inside : i < n)
    (zero : read16be m (data + 2 * i) = 0) :
    ipChecksum (write16be m (data + 2 * i) (ipChecksum m data (2 * n))) data (2 * n) = 0 := by
  have complement := EndAroundCarry.fold_complement (b := 2 ^ 16) (by decide) (wordSum m data n)
  rw [ip_checksum_eq _ data few, word_sum_filled inside zero (ip_checksum_lt m data (2 * n)),
    ip_checksum_eq m data few, complement, Nat.sub_self]

/-- 0 into the field, the checksum of the data with it, and that into the field. -/
def backPatch (m : Mem) (field data len : Nat) : Mem :=
  write16be (write16be m field 0) field (ipChecksum (write16be m field 0) data len)

theorem back_patch_verifies (data : Nat) (few : n ≤ 32767) (inside : i < n) (m : Mem) :
    ipChecksum (backPatch m (data + 2 * i) data (2 * n)) data (2 * n) = 0 :=
  filled_in_verifies few inside (read16be_write16be (by decide))

theorem back_patch_outside {field p : Nat} (outside : p < field ∨ field + 2 ≤ p) :
    backPatch m field data len p = m p := by
  rw [backPatch, write16be_outside outside, write16be_outside outside]

end Checksum

theorem build_icmp_echo_eq (m : Mem) (frame srcMac dstMac srcIp dstIp seq : Nat) :
    ∃ body, buildIcmpEcho m frame srcMac dstMac srcIp dstIp seq =
      (backPatch (backPatch (write16be body (frame + 16) 60) (frame + 24) (frame + 14) 20)
        (frame + 36) (frame + 34) 40, 74) :=
  ⟨_, rfl⟩

/-- ip_checksum is the complement of the one's-complement sum of the big-endian words; stored in a
    field of zeros at an even offset it makes the checksum of the whole data 0, and build_icmp_echo
    leaves a frame with two such checksums and the right total length. -/
theorem internet_checksums_verify :
    (∀ (m : Mem) (data len : Nat), len % 2 = 0 → len ≤ 65534 →
      ipChecksum m data len = 2 ^ 16 - 1 - EndAroundCarry.fold (2 ^ 16) (wordSum m data (len / 2))) ∧
    (∀ (m : Mem) (data len off : Nat), len % 2 = 0 → len ≤ 65534 → off % 2 = 0 → off + 2 ≤ len →
      m (data + off) = 0 → m (data + off + 1) = 0 →
      ipChecksum (write16be m (data + off) (ipChecksum m data len)) data len = 0) ∧
    ∀ (m : Mem) (frame srcMac dstMac srcIp dstIp seq : Nat),
      let built := buildIcmpEcho m frame srcMac dstMac srcIp dstIp seq
      ipChecksum built.1 (frame + 14) 20 = 0 ∧
        ipChecksum built.1 (frame + 34) (built.2 - 34) = 0 ∧
        read16be built.1 (frame + 16) = built.2 - 14 := by
  refine ⟨?_, ?_, ?_⟩
  · intro m data len even short
    have halves : 2 * (len / 2) = len := by omega
    have sum := ip_checksum_eq (n := len / 2) m data (by omega)
    rw [halves] at sum
    exact sum
  · intro m data len off even short evenOff inside high low
    obtain ⟨n, rfl⟩ : ∃ n, len = 2 * n := ⟨len / 2, by omega⟩
    obtain ⟨i, rfl⟩ : ∃ i, off = 2 * i := ⟨off / 2, by omega⟩
    apply filled_in_verifies (by omega) (by omega)
    simp [read16be, high, low]
  · intro m frame srcMac dstMac srcIp dstIp seq
    obtain ⟨body, built⟩ := build_icmp_echo_eq m frame srcMac dstMac srcIp dstIp seq
    simp only [built]
    -- the ICMP checksum goes in last, behind the IP header
    have header : ∀ (m : Mem) (x : Nat), frame + 14 ≤ x → x < frame + 34 →
        backPatch m (frame + 36) (frame + 34) 40 x = m x := by
      intro m x lower upper
      exact back_patch_outside (by omega)
    refine ⟨?_, ?_, ?_⟩
    · have same := ip_checksum_congr (n := 10) (frame + 14) (by decide)
        (header (backPatch (write16be body (frame + 16) 60) (frame + 24) (frame + 14) 20))
      rw [same]
      exact back_patch_verifies (n := 10) (i := 5) (frame + 14) (by decide) (by decide) _
    · exact back_patch_verifies (n := 20) (i := 1) (frame + 34) (by decide) (by decide) _
    · have total : ∀ x, frame + 16 ≤ x → x < frame + 18 →
          backPatch (backPatch (write16be body (frame + 16) 60) (frame + 24) (frame + 14) 20)
            (frame + 36) (frame + 34) 40 x = write16be body (frame + 16) 60 x := by
        intro x lower upper
        rw [header _ x (by omega) (by omega)]
        exact back_patch_outside (by omega)
      rw [read16be_congr (total _ (by omega) (by omega)) (total _ (by omega) (by omega))]
      exact read16be_write16be (by decide)

/-- Four bytes of data with an empty field behind the first word. -/
theorem internet_checksums_verify_at :
    ipChecksum (fun p => if p < 2 then 0xAB else 0) 0 4 = 0x5454 ∧
      ipChecksum (write16be (fun p => if p < 2 then 0xAB else 0) 2
        (ipChecksum (fun p => if p < 2 then 0xAB else 0) 0 4)) 0 4 = 0 ∧
      read16be (buildIcmpEcho (fun _ => 1) 0 200 206 212 216 7).1 16 = 60 := by
  refine ⟨?_, ?_, ?_⟩
  · have sum := internet_checksums_verify.1 (fun p => if p < 2 then 0xAB else 0) 0 4 (by decide) (by decide)
    have words : wordSum (fun p => if p < 2 then 0xAB else 0) 0 2 = 0xABAB := rfl
    rw [sum, words, EndAroundCarry.fold, if_neg (by decide)]
    rfl
  · exact internet_checksums_verify.2.1 _ 0 4 2 (by decide) (by decide) (by decide) (by decide)
      (by decide) (by decide)
  · exact (internet_checksums_verify.2.2 (fun _ => 1) 0 200 206 212 216 7).2.2

end Archarch.Network
