import Archarch.Foundations.TranslationTables
import Archarch.Memory.PmmSpec

/- The page tables of mmu.c. Tables and user pages lie in one physical memory, which the
   kernel reaches through phys_to_virt; cache and TLB maintenance has no effect on it. -/
namespace Archarch.AddressSpaces
open ByteMemory TranslationTables PageFrames

def pteValid : Nat := 1 <<< 0
def pteTable : Nat := 1 <<< 1
def ptePage : Nat := 1 <<< 1
def pteAf : Nat := 1 <<< 10
def pteShInner : Nat := 3 <<< 8
def pteApRwAll : Nat := 1 <<< 6
def ptePxn : Nat := 1 <<< 53
def pteAttrNormal : Nat := 1 <<< 2

def userVaCode : Nat := 0x00400000
def userVaStack : Nat := 0x00800000
def userStackPages : Nat := 4
def userVaGuard : Nat := userVaStack - (userStackPages + 1) * pageSize

def tableEntry (pa : Nat) : Nat := pa ||| pteValid ||| pteTable

def pageEntry (pa : Nat) : Nat :=
  pa ||| pteValid ||| ptePage ||| pteAf ||| pteAttrNormal ||| pteShInner ||| pteApRwAll ||| ptePxn

/-- Masking with ~0xFFF. -/
def entryTable (entry : Nat) : Nat := entry / 4096 * 4096

structure Phys where
  mem : Mem
  pmm : Pmm

def zeroPage (m : Mem) (pa : Nat) : Mem := fill m pa pageSize fun _ => 0

def setEntry (m : Mem) (table i entry : Nat) : Mem := write64 m (table + 8 * i) entry

/-- A call that returns an address, or 0 when no page is left. -/
def ifPage {α β : Type} (call : Nat × α) (failed : α → β) (found : Nat → α → β) : β :=
  if call.1 = 0 then failed call.2 else found call.1 call.2

theorem if_page_none {α β : Type} (s : α) (failed : α → β) (found : Nat → α → β) :
    ifPage (0, s) failed found = failed s := rfl

theorem if_page_some {α β : Type} {pa : Nat} (some : pa ≠ 0) (s : α) (failed : α → β)
    (found : Nat → α → β) : ifPage (pa, s) failed found = found pa s := if_neg some

/-- pmm_alloc_page and zero_table. -/
def allocTable (s : Phys) : Nat × Phys :=
  ifPage (pmmAllocPage s.pmm) (fun pmm => (0, ⟨s.mem, pmm⟩)) fun pa pmm =>
  (pa, ⟨zeroPage s.mem pa, pmm⟩)

/-- The table behind entry i of a table, which is made when the entry is not present. -/
def nextTable (s : Phys) (table i : Nat) : Nat × Phys :=
  if entryAt s.mem table i &&& 0x3 = 0x3 then (entryTable (entryAt s.mem table i), s)
  else
    ifPage (allocTable s) (fun s => (0, s)) fun pa s =>
    (pa, ⟨setEntry s.mem table i (tableEntry pa), s.pmm⟩)

/-- for (; n > 0; p++, n--) l3[index(p)] = page entry of pa + p * PAGE_SIZE -/
def mapPages (m : Mem) (l3 : Nat) (index : Nat → Nat) (pa p : Nat) : Nat → Mem
  | 0 => m
  | n + 1 =>
    mapPages (setEntry m l3 (index p) (pageEntry (pa + p * pageSize % 2 ^ 32))) l3 index pa (p + 1) n

def codeIndex (p : Nat) : Nat := ((userVaCode >>> 12) + p) &&& 0x1FF

def stackVaBase (stackPages : Nat) : Nat := userVaStack - stackPages * pageSize

def stackIndex (stackPages p : Nat) : Nat :=
  ((stackVaBase stackPages + p * pageSize) >>> 12) &&& 0x1FF

def mmuCreateUserPgd (s : Phys) (codePa codePages stackPa stackPages : Nat) : Nat × Phys :=
  ifPage (allocTable s) (fun s => (0, s)) fun l1 s =>
  ifPage (allocTable s) (fun s => (0, ⟨s.mem, pmmFreePage s.pmm l1⟩)) fun l2 s =>
  let s : Phys := ⟨setEntry s.mem l1 0 (tableEntry l2), s.pmm⟩
  ifPage (allocTable s) (fun s => (0, s)) fun l3 s =>
  let m := mapPages s.mem l3 codeIndex codePa 0 codePages
  let s : Phys := ⟨setEntry m l2 ((userVaCode >>> 21) &&& 0x1FF) (tableEntry l3), s.pmm⟩
  ifPage (nextTable s l2 ((stackVaBase stackPages >>> 21) &&& 0x1FF)) (fun s => (0, s)) fun l3 s =>
  (l1, ⟨mapPages s.mem l3 (stackIndex stackPages) stackPa 0 stackPages, s.pmm⟩)

def mmuMapUserPageInPgd (s : Phys) (pgd va pa : Nat) : Int × Phys :=
  ifPage (nextTable s pgd ((va >>> 30) &&& 0x1FF)) (fun s => (-1, s)) fun l2 s =>
  ifPage (nextTable s l2 ((va >>> 21) &&& 0x1FF)) (fun s => (-1, s)) fun l3 s =>
  (0, ⟨setEntry s.mem l3 ((va >>> 12) &&& 0x1FF) (pageEntry pa), s.pmm⟩)

/- The descriptors as sums. -/

section Entries
variable {pa i : Nat}

theorem table_entry_eq (aligned : pa % 4096 = 0) : tableEntry pa = pa + 3 := by
  have low : 2 ^ 12 * (pa / 4096) + 3 = 2 ^ 12 * (pa / 4096) ||| 3 :=
    Nat.two_pow_add_eq_or_of_lt (by decide) _
  have same : 2 ^ 12 * (pa / 4096) = pa := by omega
  rw [same] at low
  rw [low, tableEntry, Nat.or_assoc]
  rfl

theorem page_entry_eq (aligned : pa % 4096 = 0) (fits : pa < 2 ^ 48) :
    pageEntry pa = 2 ^ 53 + pa + 0x747 := by
  have low : 2 ^ 12 * (pa / 4096) + 0x747 = 2 ^ 12 * (pa / 4096) ||| 0x747 :=
    Nat.two_pow_add_eq_or_of_lt (by decide) _
  have same : 2 ^ 12 * (pa / 4096) = pa := by omega
  rw [same] at low
  have high := Nat.two_pow_add_eq_or_of_lt (i := 53) (b := pa + 0x747) (by omega) 1
  rw [Nat.mul_one] at high
  have flags : pageEntry pa = (pa ||| 0x747) ||| 2 ^ 53 := by
    simp only [pageEntry, Nat.or_assoc]
    rfl
  calc pageEntry pa = 2 ^ 53 ||| (pa + 0x747) := by rw [flags, ← low, Nat.or_comm]
    _ = 2 ^ 53 + (pa + 0x747) := high.symm
    _ = 2 ^ 53 + pa + 0x747 := (Nat.add_assoc _ _ _).symm

theorem present_table_entry (aligned : pa % 4096 = 0) : Present (tableEntry pa) := by
  rw [present_iff, table_entry_eq aligned]
  omega

theorem present_page_entry (aligned : pa % 4096 = 0) (fits : pa < 2 ^ 48) :
    Present (pageEntry pa) := by
  rw [present_iff, page_entry_eq aligned fits]
  omega

theorem out_addr_table_entry (aligned : pa % 4096 = 0) (fits : pa < 2 ^ 48) :
    outAddr (tableEntry pa) = pa := by
  rw [outAddr, table_entry_eq aligned]
  omega

theorem out_addr_page_entry (aligned : pa % 4096 = 0) (fits : pa < 2 ^ 48) :
    outAddr (pageEntry pa) = pa := by
  rw [outAddr, page_entry_eq aligned fits]
  omega

theorem entry_table_eq {e : Nat} (fits : e < 2 ^ 48) : entryTable e = outAddr e := by
  rw [entryTable, outAddr, Nat.mod_eq_of_lt fits]

theorem index_eq (a : Nat) : a &&& 0x1FF = a % 512 := Nat.and_two_pow_sub_one_eq_mod a 9

theorem index_lt (a : Nat) : a &&& 0x1FF < 512 := by
  rw [index_eq]
  omega

theorem code_index_eq (p : Nat) : codeIndex p = p % 512 := by
  rw [codeIndex, index_eq, show userVaCode >>> 12 = 1024 from rfl]
  omega

theorem code_table_index : (userVaCode >>> 21) &&& 0x1FF = 2 := rfl

theorem stack_table_index : (stackVaBase userStackPages >>> 21) &&& 0x1FF = 3 := rfl

end Entries
end Archarch.AddressSpaces
