import Archarch.Foundations.Numerals
import Archarch.Shell.CommandLine

/- The numbers that the kernel and the shell print: uart_putdec and uart_puthex of uart.c and
   print_num of shell.c. -/
namespace Archarch.Printing
open Descriptors Shell Numerals

def decDigit (d : Nat) : Byte := byteOf '0' + BitVec.ofNat 8 d

/-- while (val > 0) { buf[i++] = '0' + (val % 10); val /= 10; } into what is left of buf; none is a
    store behind its end. -/
def putDigits : Nat → BitVec 64 → Option Text
  | 0, val => if val = 0 then some [] else none
  | room + 1, val => if val = 0 then some [] else (putDigits room (val / 10)).map (decDigit (val % 10).toNat :: ·)

def uartPutdec (val : BitVec 64) : Option Text :=
  if val = 0 then some [byteOf '0'] else (putDigits 20 val).map List.reverse

def hex : List Char := ['0', '1', '2', '3', '4', '5', '6', '7', '8', '9', 'a', 'b', 'c', 'd', 'e', 'f']

/-- for (i = 60; i >= 0; i -= 4), from i = 4 * w - 4 on. -/
def putNibbles : Nat → BitVec 64 → Text
  | 0, _ => []
  | w + 1, val => byteOf (hex.getD ((val >>> (4 * w)) &&& 0xf).toNat ' ') :: putNibbles w val

def uartPuthex (val : BitVec 64) : Text := [byteOf '0', byteOf 'x'] ++ putNibbles 16 val

/-- The loop of print_num: its n has a sign. -/
def putSigned : Nat → BitVec 64 → Option Text
  | 0, n => if (0#64).slt n then none else some []
  | room + 1, n =>
    if (0#64).slt n then (putSigned room (n.sdiv 10)).map (decDigit (n.srem 10).toNat :: ·) else some []

/-- n = -n overflows for the smallest number, and the language leaves open what is printed then. -/
def printNum (n : BitVec 64) : Option Text :=
  if n = 0 then some [byteOf '0']
  else if n = BitVec.intMin 64 then none
  else
    let minus := if n.slt 0 then [byteOf '-'] else []
    let n := if n.slt 0 then -n else n
    (putSigned 20 n).map fun digits => minus ++ digits.reverse

/- Numbers as texts. -/

def decimal (n : Nat) : Text := if n = 0 then [byteOf '0'] else (numeral 10 n).map decDigit

def signed (n : Int) : Text := if n < 0 then byteOf '-' :: decimal n.natAbs else decimal n.natAbs

def digitValue (base : Nat) (c : Byte) : Option Nat :=
  ((List.range base).find? fun d => byteOf (hex.getD d ' ') = c)

def readDigits (base : Nat) (text : Text) : Option Nat := (text.mapM (digitValue base)).map (value base)

def readSigned : Text → Option Int
  | [] => none
  | c :: text => if c = byteOf '-' then (readDigits 10 text).map fun n : Nat => -(n : Int)
    else (readDigits 10 (c :: text)).map fun n : Nat => (n : Int)

def readHex : Text → Option Nat
  | zero :: x :: text => if zero = byteOf '0' ∧ x = byteOf 'x' then readDigits 16 text else none
  | _ => none

section Digits

theorem digit_value_dec {d : Nat} (low : d < 10) : digitValue 10 (decDigit d) = some d := by
  have all : ∀ d < 10, digitValue 10 (decDigit d) = some d := by decide
  exact all d low

theorem digit_value_hex {d : Nat} (low : d < 16) : digitValue 16 (byteOf (hex.getD d ' ')) = some d := by
  have all : ∀ d < 16, digitValue 16 (byteOf (hex.getD d ' ')) = some d := by decide
  exact all d low

theorem digit_no_minus {d : Nat} (low : d < 10) : decDigit d ≠ byteOf '-' := by
  have all : ∀ d < 10, decDigit d ≠ byteOf '-' := by decide
  exact all d low

theorem read_digits {base : Nat} {char : Nat → Byte} (reads : ∀ d, d < base → digitValue base (char d) = some d)
    {ds : List Nat} (digits : ∀ d ∈ ds, d < base) : readDigits base (ds.map char) = some (value base ds) := by
  have all : (ds.map char).mapM (digitValue base) = some ds := by
    induction ds with
    | nil => rfl
    | cons d ds ih =>
      rw [List.map_cons, List.mapM_cons, reads d (digits d (List.mem_cons_self ..)),
        ih fun e member => digits e (List.mem_cons_of_mem _ member)]
      rfl
  rw [readDigits, all, Option.map_some]

theorem numeral_lt {n d : Nat} (member : d ∈ numeral 10 n) : d < 10 :=
  Nat.digits_lt_base (by decide) (List.mem_reverse.mp member)

theorem read_decimal (n : Nat) : readDigits 10 (decimal n) = some n := by
  rw [decimal]
  split
  · rename_i zero
    rw [zero]
    rfl
  · rw [read_digits (fun _ => digit_value_dec) fun d => numeral_lt, value_numeral]

theorem decimal_head (n : Nat) : ∃ c text, decimal n = c :: text ∧ c ≠ byteOf '-' := by
  rw [decimal]
  split
  · exact ⟨_, _, rfl, by decide⟩
  · rename_i positive
    cases digits : numeral 10 n with
    | nil =>
      have none_ := value_numeral 10 n
      rw [digits] at none_
      exact absurd none_.symm positive
    | cons d ds =>
      exact ⟨_, _, rfl, digit_no_minus (numeral_lt (n := n) (by rw [digits]; exact List.mem_cons_self ..))⟩

theorem read_signed (n : Int) : readSigned (signed n) = some n := by
  rw [signed]
  split
  · rename_i negative
    rw [readSigned, if_pos rfl, read_decimal, Option.map_some]
    exact congrArg some (by omega)
  · rename_i positive
    obtain ⟨c, text, same, other⟩ := decimal_head n.natAbs
    rw [same, readSigned, if_neg other, ← same, read_decimal, Option.map_some]
    exact congrArg some (by omega)

end Digits

section Loops
variable {val n : BitVec 64}

theorem zero_iff (val : BitVec 64) : val = 0 ↔ val.toNat = 0 :=
  ⟨fun zero => by rw [zero]; rfl, fun zero => BitVec.eq_of_toNat_eq zero⟩

theorem put_digits_eq (room : Nat) (val : BitVec 64) :
    putDigits room val = (fill 10 room val.toNat).map fun ds => ds.map decDigit := by
  induction room generalizing val with
  | zero =>
    rw [putDigits, fill]
    by_cases zero : val = 0
    · rw [if_pos zero, if_pos ((zero_iff val).mp zero)]
      rfl
    · rw [if_neg zero, if_neg (mt (zero_iff val).mpr zero)]
      rfl
  | succ room ih =>
    rw [putDigits, fill]
    by_cases zero : val = 0
    · rw [if_pos zero, if_pos ((zero_iff val).mp zero)]
      rfl
    · have rest : (val / 10).toNat = val.toNat / 10 := BitVec.toNat_udiv
      have last : (val % 10).toNat = val.toNat % 10 := BitVec.toNat_umod
      rw [if_neg zero, if_neg (mt (zero_iff val).mpr zero), ih, rest, last, Option.map_map, Option.map_map]
      rfl

theorem uart_putdec_eq (val : BitVec 64) : uartPutdec val = some (decimal val.toNat) := by
  rw [uartPutdec, decimal]
  by_cases zero : val = 0
  · rw [if_pos zero, if_pos ((zero_iff val).mp zero)]
  · have fits : val.toNat < 10 ^ 20 := Nat.lt_trans val.isLt (by decide)
    rw [if_neg zero, if_neg (mt (zero_iff val).mpr zero), put_digits_eq, fill_eq (by decide) fits, Option.map_some,
      Option.map_some, numeral, List.map_reverse]

theorem positive_iff (low : n.toNat < 2 ^ 63) : (0#64).slt n = true ↔ n.toNat ≠ 0 := by
  have zero : (0#64).toInt = 0 := rfl
  have value : n.toInt = n.toNat := BitVec.toInt_eq_toNat_of_lt (by omega)
  rw [BitVec.slt_iff_toInt_lt, zero, value]
  omega

theorem put_signed_eq (room : Nat) (low : n.toNat < 2 ^ 63) :
    putSigned room n = (fill 10 room n.toNat).map fun ds => ds.map decDigit := by
  induction room generalizing n with
  | zero =>
    rw [putSigned, fill]
    by_cases zero : n.toNat = 0
    · rw [if_neg (mt (positive_iff low).mp (not_not.mpr zero)), if_pos zero]
      rfl
    · rw [if_pos ((positive_iff low).mpr zero), if_neg zero]
      rfl
  | succ room ih =>
    rw [putSigned, fill]
    by_cases zero : n.toNat = 0
    · rw [if_neg (mt (positive_iff low).mp (not_not.mpr zero)), if_pos zero]
      rfl
    · have sign : n.msb = false := BitVec.msb_eq_false_iff_two_mul_lt.mpr (by omega)
      have quotient : n.sdiv 10 = n / 10 := by
        rw [BitVec.sdiv_eq, sign]
        rfl
      have remainder : n.srem 10 = n % 10 := by
        rw [BitVec.srem_eq, sign]
        rfl
      have rest : (n / 10).toNat = n.toNat / 10 := BitVec.toNat_udiv
      have last : (n % 10).toNat = n.toNat % 10 := BitVec.toNat_umod
      rw [if_pos ((positive_iff low).mpr zero), if_neg zero, quotient, remainder, ih (by omega), rest, last,
        Option.map_map, Option.map_map]
      rfl

theorem print_num_eq (smallest : n ≠ BitVec.intMin 64) : printNum n = some (signed n.toInt) := by
  rw [printNum, signed]
  by_cases zero : n = 0
  · rw [if_pos zero, zero]
    rfl
  rw [if_neg zero, if_neg smallest]
  have sign : n.slt 0 = true ↔ n.toInt < 0 := BitVec.slt_iff_toInt_lt
  have room : ∀ {m : Nat}, m < 2 ^ 63 → m < 10 ^ 20 := fun low => Nat.lt_trans low (by decide)
  have positive : n.toNat ≠ 0 := mt (zero_iff n).mpr zero
  by_cases negative : n.toInt < 0
  · have high : 2 ^ 63 ≤ n.toNat := by
      by_contra low
      rw [BitVec.toInt_eq_toNat_of_lt (by omega)] at negative
      omega
    have more : n.toNat ≠ 2 ^ 63 := fun same => smallest (BitVec.eq_of_toNat_eq same)
    have magnitude : (-n).toNat = 2 ^ 64 - n.toNat := by
      rw [BitVec.toNat_neg, Nat.mod_eq_of_lt (by omega)]
    have value : n.toInt.natAbs = 2 ^ 64 - n.toNat := by
      rw [BitVec.toInt_eq_toNat_cond, if_neg (by omega)]
      omega
    have low : (-n).toNat < 2 ^ 63 := by omega
    dsimp only
    rw [if_pos (sign.mpr negative), if_pos (sign.mpr negative), if_pos negative, put_signed_eq 20 low,
      fill_eq (by decide) (room low), Option.map_some, Option.map_some, magnitude, value, decimal,
      if_neg (by omega), numeral, List.map_reverse]
    rfl
  · have low : n.toNat < 2 ^ 63 := by
      by_contra high
      rw [BitVec.toInt_eq_toNat_cond, if_neg (by omega)] at negative
      omega
    have value : n.toInt.natAbs = n.toNat := by
      rw [BitVec.toInt_eq_toNat_of_lt (by omega)]
      rfl
    dsimp only
    rw [if_neg (mt sign.mp negative), if_neg (mt sign.mp negative), if_neg negative, put_signed_eq 20 low,
      fill_eq (by decide) (room low), Option.map_some, Option.map_some, value, decimal, if_neg positive, numeral,
      List.map_reverse]
    rfl

theorem put_nibbles_eq (w : Nat) (val : BitVec 64) :
    putNibbles w val = (padded 16 w val.toNat).map fun d => byteOf (hex.getD d ' ') := by
  induction w with
  | zero => rfl
  | succ w ih =>
    have nibble : ((val >>> (4 * w)) &&& 0xf).toNat = val.toNat / 16 ^ w % 16 := by
      have mask : BitVec.toNat (0xf : BitVec 64) = 2 ^ 4 - 1 := rfl
      rw [BitVec.toNat_and, BitVec.toNat_ushiftRight, Nat.shiftRight_eq_div_pow, mask, Nat.and_two_pow_sub_one_eq_mod,
        Nat.pow_mul]
    rw [putNibbles, padded, List.map_cons, nibble, ih]

end Loops

/-- Every number that the kernel and the shell print is read back, and no loop leaves its buffer of 20
    bytes. -/
theorem printed_numbers_read_back (val : BitVec 64) :
    (∃ text, uartPutdec val = some text ∧ readDigits 10 text = some val.toNat) ∧
      (val ≠ BitVec.intMin 64 → ∃ text, printNum val = some text ∧ readSigned text = some val.toInt) ∧
        readHex (uartPuthex val) = some val.toNat ∧ (uartPuthex val).length = 18 := by
  refine ⟨⟨_, uart_putdec_eq val, read_decimal _⟩, fun other => ⟨_, print_num_eq other, read_signed _⟩, ?_, ?_⟩
  · have fits : val.toNat < 16 ^ 16 := val.isLt
    rw [uartPuthex, put_nibbles_eq, List.cons_append, List.cons_append, List.nil_append, readHex, if_pos ⟨rfl, rfl⟩,
      read_digits (fun _ => digit_value_hex) fun _ => padded_lt (by decide), value_padded fits]
  · rw [uartPuthex, put_nibbles_eq, List.length_append, List.length_map, padded_length]
    rfl

end Archarch.Printing
