import Mathlib.Data.List.TakeWhile
import Archarch.Volumes.Fat16

/- The three scans of the root directory: SYS_LISTDIR, fat16_list_root and fat16_open walk the
   same entries, each with its own test of the attributes. -/
namespace Archarch.Fat16

def sectorAt (fs : Fs) (s : Nat) : Sector := (fs.blk (fs.bpb.rootDirSector + s)).getD fun _ => 0

def SectorsRead (fs : Fs) : Prop :=
  ∀ s, s < fs.bpb.rootDirSectors → (fs.blk (fs.bpb.rootDirSector + s)).isSome

def entriesFrom (fs : Fs) (s n : Nat) : List Dirent :=
  (List.range' s n).flatMap fun i => sectorEntries (sectorAt fs i)

def Dirent.continues (de : Dirent) : Bool := de.first ≠ endMark

def Dirent.kept (de : Dirent) : Bool := de.first ≠ deletedMark

/-- The entries in front of the end mark that are not deleted. -/
def live (entries : List Dirent) : List Dirent := (entries.takeWhile Dirent.continues).filter Dirent.kept

def rootEntries (fs : Fs) : List Dirent := live (entriesFrom fs 0 fs.bpb.rootDirSectors)

/-- The attribute test of fat16_list_root, of fat16_open and of SYS_LISTDIR. -/
def listed (de : Dirent) : Bool :=
  de.attr &&& (fatAttrLfn ||| fatAttrVolumeId ||| fatAttrDirectory) = 0

def openable (de : Dirent) : Bool := de.attr &&& (fatAttrLfn ||| fatAttrVolumeId) = 0

def printed (de : Dirent) : Bool := de.attr &&& 0x1E = 0

def isDirectory (de : Dirent) : Bool := de.attr &&& fatAttrDirectory ≠ 0

def report (de : Dirent) : List Byte × Nat := (fat83ToStr de, de.fileSize)

def line (name : List Byte) : List Byte := name ++ [0x0A]

section Scans
variable {es rest : List Dirent} {de : Dirent} {fs : Fs}

theorem live_append (es rest : List Dirent) :
    live (es ++ rest) = if es.all Dirent.continues then live es ++ live rest else live es := by
  rw [live, List.takeWhile_append]
  by_cases all : es.all Dirent.continues = true
  · have whole : es.takeWhile Dirent.continues = es :=
      List.takeWhile_eq_self_iff.mpr (List.all_eq_true.mp all)
    rw [if_pos all, if_pos (by rw [whole]), List.filter_append, live, live, whole]
  · have cut : ¬ (es.takeWhile Dirent.continues).length = es.length := by
      intro same
      have whole : es.takeWhile Dirent.continues = es :=
        (List.takeWhile_prefix Dirent.continues).eq_of_length same
      exact all (List.all_eq_true.mpr (List.takeWhile_eq_self_iff.mp whole))
    rw [if_neg all, if_neg cut, live]

theorem live_end (last : de.first = endMark) : live (de :: rest) = [] := by
  have stops : de.continues = false := by simp [Dirent.continues, last]
  rw [live, List.takeWhile_cons, stops]
  rfl

theorem live_deleted (deleted : de.first = deletedMark) : live (de :: rest) = live rest := by
  have goes : de.continues = true := by simp [Dirent.continues, deleted, deletedMark, endMark]
  have gone : de.kept = false := by simp [Dirent.kept, deleted]
  rw [live, live, List.takeWhile_cons, goes, if_pos rfl, List.filter_cons, gone]
  rfl

theorem live_cons (goes : de.first ≠ endMark) (kept : de.first ≠ deletedMark) :
    live (de :: rest) = de :: live rest := by
  have goes' : de.continues = true := by simp [Dirent.continues, goes]
  have kept' : de.kept = true := by simp [Dirent.kept, kept]
  rw [live, live, List.takeWhile_cons, goes', if_pos rfl, List.filter_cons, kept', if_pos rfl]

theorem all_cons_end (last : de.first = endMark) : (de :: rest).all Dirent.continues = false := by
  simp [Dirent.continues, last]

theorem all_cons (goes : de.first ≠ endMark) :
    (de :: rest).all Dirent.continues = rest.all Dirent.continues := by
  simp [Dirent.continues, goes]

theorem list_entries_eq (es : List Dirent) :
    listEntries es = (((live es).filter listed).map report, !es.all Dirent.continues) := by
  induction es with
  | nil => rfl
  | cons de rest ih =>
    rw [listEntries]
    by_cases last : de.first = endMark
    · rw [if_pos last, live_end last, all_cons_end last]
      rfl
    · rw [if_neg last, all_cons last]
      by_cases deleted : de.first = deletedMark
      · rw [if_pos deleted, ih, live_deleted deleted]
      · rw [if_neg deleted, live_cons last deleted, ih]
        by_cases hidden : de.attr &&& (fatAttrLfn ||| fatAttrVolumeId ||| fatAttrDirectory) = 0
        · have shown : listed de = true := decide_eq_true hidden
          rw [if_neg (by simpa using hidden), List.filter_cons, shown, if_pos rfl]
          rfl
        · have skipped : listed de = false := decide_eq_false hidden
          rw [if_pos hidden, List.filter_cons, skipped]
          rfl

theorem entries_from_succ (fs : Fs) (s n : Nat) :
    entriesFrom fs s (n + 1) = sectorEntries (sectorAt fs s) ++ entriesFrom fs (s + 1) n := by
  rw [entriesFrom, List.range'_succ, List.flatMap_cons]
  rfl

theorem sector_at_read {s : Nat} {sector : Sector} (read : fs.blk (fs.bpb.rootDirSector + s) = some sector) :
    sectorAt fs s = sector := by
  rw [sectorAt, read, Option.getD_some]

theorem list_from_eq {n s : Nat} (read : ∀ i, s ≤ i → i < s + n → (fs.blk (fs.bpb.rootDirSector + i)).isSome) :
    listFrom fs s n = ((live (entriesFrom fs s n)).filter listed).map report := by
  induction n generalizing s with
  | zero => rfl
  | succ n ih =>
    obtain ⟨sector, here⟩ := Option.isSome_iff_exists.mp (read s (Nat.le_refl s) (by omega))
    rw [listFrom, here, entries_from_succ, sector_at_read here, live_append]
    dsimp only
    rw [list_entries_eq]
    by_cases all : (sectorEntries sector).all Dirent.continues = true
    · rw [all, Bool.not_true, if_neg (by simp), if_pos rfl, ih (fun i low high => read i (by omega) (by omega)),
        List.filter_append, List.map_append]
    · rw [Bool.not_eq_true] at all
      rw [all, Bool.not_false, if_pos rfl, if_neg (by simp)]

theorem list_root_eq (read : SectorsRead fs) :
    fat16ListRoot fs = ((rootEntries fs).filter listed).map report := by
  rw [fat16ListRoot, rootEntries]
  apply list_from_eq
  intro i _ low
  exact read i (by omega)

def file (de : Dirent) : FatFile := ⟨de.firstCluster, de.fileSize⟩

def named (fatName : List Byte) (de : Dirent) : Bool := fatName = de.name ++ de.ext

theorem open_entries_eq (fatName : List Byte) (es : List Dirent) :
    openEntries fatName es =
      match ((live es).filter openable).find? (named fatName) with
      | some de => .found (file de)
      | none => if es.all Dirent.continues then .further else .absent := by
  induction es with
  | nil => rfl
  | cons de rest ih =>
    rw [openEntries]
    by_cases last : de.first = endMark
    · rw [if_pos last, live_end last, all_cons_end last]
      rfl
    · rw [if_neg last, all_cons last]
      by_cases deleted : de.first = deletedMark
      · rw [if_pos deleted, ih, live_deleted deleted]
      · rw [if_neg deleted, live_cons last deleted, List.filter_cons]
        by_cases hidden : de.attr &&& (fatAttrLfn ||| fatAttrVolumeId) = 0
        · have shown : openable de = true := decide_eq_true hidden
          rw [if_neg (by simpa using hidden), shown, if_pos rfl, List.find?_cons]
          by_cases same : fatName = de.name ++ de.ext
          · have yes : named fatName de = true := decide_eq_true same
            rw [if_pos same, yes]
            rfl
          · have no : named fatName de = false := decide_eq_false same
            rw [if_neg same, no]
            exact ih
        · have skipped : openable de = false := decide_eq_false hidden
          rw [if_pos hidden, skipped]
          exact ih

theorem open_from_eq {n s : Nat} (fatName : List Byte)
    (read : ∀ i, s ≤ i → i < s + n → (fs.blk (fs.bpb.rootDirSector + i)).isSome) :
    openFrom fs fatName s n =
      (((live (entriesFrom fs s n)).filter openable).find? (named fatName)).map file := by
  induction n generalizing s with
  | zero => rfl
  | succ n ih =>
    obtain ⟨sector, here⟩ := Option.isSome_iff_exists.mp (read s (Nat.le_refl s) (by omega))
    rw [openFrom, here, entries_from_succ, sector_at_read here, live_append]
    dsimp only
    rw [open_entries_eq]
    by_cases all : (sectorEntries sector).all Dirent.continues = true
    · rw [if_pos all, if_pos all, List.filter_append, List.find?_append]
      cases ((live (sectorEntries sector)).filter openable).find? (named fatName) with
      | none => exact ih fun i low high => read i (by omega) (by omega)
      | some de => rfl
    · rw [if_neg all, if_neg all]
      cases ((live (sectorEntries sector)).filter openable).find? (named fatName) with
      | none => rfl
      | some de => rfl

theorem open_name_eq (read : SectorsRead fs) (fatName : List Byte) : fat16OpenName fs fatName =
    (((rootEntries fs).filter openable).find? (named fatName)).map file := by
  rw [fat16OpenName, rootEntries]
  apply open_from_eq
  intro i _ low
  exact read i (by omega)

def entryLine (de : Dirent) : List Byte := line (fat83ToStr de)

def lines (es : List Dirent) : List Byte := es.flatMap entryLine

/-- What SYS_LISTDIR would print of n sectors from sector s on with room for everything. -/
def listingFrom (fs : Fs) (s : Nat) : Nat → List Byte
  | 0 => []
  | n + 1 =>
    match fs.blk (fs.bpb.rootDirSector + s) with
    | none => []
    | some sector => lines ((live (sectorEntries sector)).filter printed) ++
      if (sectorEntries sector).all Dirent.continues then listingFrom fs (s + 1) n else []

def listing (fs : Fs) : List Byte := listingFrom fs 0 fs.bpb.rootDirSectors

theorem take_append_take (limit : Nat) (text more : List Byte) :
    (text.take limit ++ more).take limit = (text ++ more).take limit := by
  rw [List.take_append, List.take_append, List.take_take, Nat.min_self, List.length_take]
  have rest : limit - min limit text.length = limit - text.length := by omega
  rw [rest]

theorem put_byte_take {limit : Nat} {text : List Byte} (c : Byte) (within : text.length ≤ limit) :
    (if text.length < limit then text ++ [c] else text) = (text ++ [c]).take limit := by
  split
  · have fits : (text ++ [c]).length ≤ limit := by
      rw [List.length_append, List.length_singleton]
      omega
    exact (List.take_of_length_le fits).symm
  · have full : limit = text.length := by omega
    rw [full, List.take_left]

theorem put_chars_take {limit : Nat} {cs text : List Byte} (within : text.length ≤ limit) :
    putChars limit cs text = (text ++ cs.filter fun c => c ≠ space).take limit := by
  induction cs generalizing text with
  | nil =>
    rw [List.filter_nil, List.append_nil, List.take_of_length_le within]
    rfl
  | cons c rest ih =>
    rw [putChars]
    split
    · rename_i room
      by_cases blank : c = space
      · have skip : (c :: rest).filter (fun c => c ≠ space) = rest.filter fun c => c ≠ space := by
          simp [blank]
        rw [skip, if_neg fun other => other blank]
        exact ih within
      · have take : (c :: rest).filter (fun c => c ≠ space) = c :: rest.filter fun c => c ≠ space := by
          simp [blank]
        have longer : (text ++ [c]).length ≤ limit := by
          rw [List.length_append, List.length_singleton]
          omega
        rw [take, if_pos blank, ih longer, List.append_assoc]
        rfl
    · have full : limit = text.length := by omega
      rw [full, List.take_left]

theorem put_entry_take {limit : Nat} {text : List Byte} (de : Dirent) (within : text.length ≤ limit) :
    putEntry limit de text = (text ++ entryLine de).take limit := by
  have cut : ∀ more : List Byte, (more.take limit).length ≤ limit := fun more => List.length_take_le _ _
  have name : putChars limit de.name text = (text ++ de.name.filter fun c => c ≠ space).take limit :=
    put_chars_take within
  have whole : ∀ text : List Byte, text.length ≤ limit →
      (if de.ext.headD 0 ≠ space ∧ text.length < limit then putChars limit de.ext (text ++ [dot]) else text) =
        (text ++ if de.ext.headD 0 ≠ space then dot :: de.ext.filter (fun c => c ≠ space) else []).take limit := by
    intro text within
    by_cases plain : de.ext.headD 0 = space
    · rw [if_neg fun both => both.1 plain, if_neg fun other => other plain, List.append_nil,
        List.take_of_length_le within]
    · rw [if_pos plain]
      by_cases room : text.length < limit
      · have longer : (text ++ [dot]).length ≤ limit := by
          rw [List.length_append, List.length_singleton]
          omega
        rw [if_pos ⟨plain, room⟩, put_chars_take longer, List.append_assoc]
        rfl
      · have full : limit = text.length := by omega
        rw [if_neg fun both => room both.2, full, List.take_left]
  rw [putEntry, name, whole _ (cut _), put_byte_take _ (cut _), take_append_take, List.append_assoc,
    take_append_take, entryLine, line, fat83ToStr, List.append_assoc, List.append_assoc]

theorem put_entries_take {limit : Nat} {text : List Byte} (es : List Dirent) (within : text.length ≤ limit) :
    (putEntries limit es text).1 = (text ++ lines ((live es).filter printed)).take limit ∧
      ((putEntries limit es text).2 = true → es.all Dirent.continues = false) ∧
      ((putEntries limit es text).2 = false → es.all Dirent.continues = true ∨
        limit ≤ (putEntries limit es text).1.length) := by
  induction es generalizing text with
  | nil =>
    have nothing : lines ((live []).filter printed) = [] := rfl
    rw [putEntries, nothing, List.append_nil, List.take_of_length_le within]
    exact ⟨rfl, by simp, fun _ => Or.inl rfl⟩
  | cons de rest ih =>
    rw [putEntries]
    by_cases full : limit ≤ text.length
    · have same : limit = text.length := by omega
      rw [if_pos full, same, List.take_left]
      exact ⟨rfl, by simp, fun _ => Or.inr (Nat.le_refl _)⟩
    · rw [if_neg full]
      by_cases last : de.first = endMark
      · have nothing : lines (([] : List Dirent).filter printed) = [] := rfl
        rw [if_pos last, live_end last, nothing, List.append_nil, List.take_of_length_le within]
        exact ⟨rfl, fun _ => all_cons_end last, by simp⟩
      · rw [if_neg last, all_cons last]
        by_cases deleted : de.first = deletedMark
        · rw [live_deleted deleted, if_pos deleted]
          exact ih within
        · rw [live_cons last deleted, List.filter_cons, if_neg deleted]
          by_cases hidden : de.attr &&& 0x1E = 0
          · have shown : printed de = true := decide_eq_true hidden
            have longer : (putEntry limit de text).length ≤ limit := by
              rw [put_entry_take de within]
              exact List.length_take_le _ _
            have later := ih longer
            rw [put_entry_take de within, take_append_take, List.append_assoc] at later
            rw [shown, if_pos rfl, lines, List.flatMap_cons, ← lines, if_neg (by simpa using hidden),
              put_entry_take de within]
            exact later
          · have skipped : printed de = false := decide_eq_false hidden
            rw [skipped, if_neg Bool.false_ne_true, if_pos hidden]
            exact ih within

theorem put_from_take {limit n s : Nat} {text : List Byte} (within : text.length ≤ limit) :
    putFrom fs limit s text n = (text ++ listingFrom fs s n).take limit := by
  induction n generalizing s text with
  | zero =>
    rw [putFrom, listingFrom, List.append_nil, List.take_of_length_le within]
  | succ n ih =>
    rw [putFrom, listingFrom]
    by_cases full : limit ≤ text.length
    · have same : limit = text.length := by omega
      rw [if_pos full, same, List.take_left]
    · rw [if_neg full]
      cases fs.blk (fs.bpb.rootDirSector + s) with
      | none => rw [List.append_nil, List.take_of_length_le within]
      | some sector =>
        dsimp only
        obtain ⟨put, ended, further⟩ := put_entries_take (sectorEntries sector) within
        have cut : (putEntries limit (sectorEntries sector) text).1.length ≤ limit := by
          rw [put]
          exact List.length_take_le _ _
        by_cases all : (sectorEntries sector).all Dirent.continues = true
        · have goes : ¬ (putEntries limit (sectorEntries sector) text).2 = true := by
            intro stop
            rw [ended stop] at all
            cases all
          rw [if_pos all, if_neg goes, ih cut, put, take_append_take, List.append_assoc]
        · rw [if_neg all, List.append_nil]
          by_cases stop : (putEntries limit (sectorEntries sector) text).2 = true
          · rw [if_pos stop, put]
          · have room := (further (by simpa using stop)).resolve_left all
            have same : limit = (putEntries limit (sectorEntries sector) text).1.length := by omega
            rw [if_neg stop, ih cut]
            nth_rewrite 1 [same]
            rw [List.take_left, put]

theorem sys_listdir_take (fs : Fs) (buflen : Nat) :
    sysListdir fs buflen = (listing fs).take ((buflen + 2 ^ 32 - 1) % 2 ^ 32) := by
  rw [sysListdir, put_from_take (Nat.zero_le _)]
  rfl

theorem listing_from_eq {n s : Nat} (read : ∀ i, s ≤ i → i < s + n → (fs.blk (fs.bpb.rootDirSector + i)).isSome) :
    listingFrom fs s n = lines ((live (entriesFrom fs s n)).filter printed) := by
  induction n generalizing s with
  | zero => rfl
  | succ n ih =>
    obtain ⟨sector, here⟩ := Option.isSome_iff_exists.mp (read s (Nat.le_refl s) (by omega))
    rw [listingFrom, here, entries_from_succ, sector_at_read here, live_append]
    dsimp only
    by_cases all : (sectorEntries sector).all Dirent.continues = true
    · rw [if_pos all, if_pos all, ih (fun i low high => read i (by omega) (by omega)), List.filter_append, lines,
        lines, lines, List.flatMap_append]
    · rw [if_neg all, if_neg all, List.append_nil]

theorem sys_listdir_eq {buflen : Nat} (read : SectorsRead fs) (word : buflen < 2 ^ 32)
    (room : (lines ((rootEntries fs).filter printed)).length < buflen) :
    sysListdir fs buflen = lines ((rootEntries fs).filter printed) := by
  have limit : (buflen + 2 ^ 32 - 1) % 2 ^ 32 = buflen - 1 := by omega
  have all : listing fs = lines ((rootEntries fs).filter printed) := by
    apply listing_from_eq
    intro i _ low
    exact read i (by omega)
  rw [sys_listdir_take, limit, all, List.take_of_length_le (by omega)]

end Scans

/-- An entry that fat16_open takes when it looks for the 11 bytes of the entry. -/
def opens (de : Dirent) : Bool := openEntries (de.name ++ de.ext) [de] = .found (file de)

/-- SYS_LISTDIR prints what fat16_list_root reports, and that is what fat16_open finds but for
    the directories. -/
structure ScannersAgree (fs : Fs) (buflen : Nat) : Prop where
  text : sysListdir fs buflen = ((fat16ListRoot fs).map Prod.fst).flatMap line
  found : fat16ListRoot fs = ((rootEntries fs).filter fun de => opens de && !isDirectory de).map report

/-- No entry is read-only and neither hidden, a system file, a volume label nor a directory. -/
def NoPlainReadOnly (fs : Fs) : Prop :=
  ∀ de ∈ rootEntries fs, de.attr &&& (fatAttrHidden ||| fatAttrSystem ||| fatAttrVolumeId ||| fatAttrDirectory) = 0 →
    de.attr &&& fatAttrReadOnly = 0

section Agreement
variable {fs : Fs} {de : Dirent}

theorem live_first {es : List Dirent} (member : de ∈ live es) :
    de.first ≠ endMark ∧ de.first ≠ deletedMark := by
  obtain ⟨before, kept⟩ := List.mem_filter.mp member
  have goes := List.mem_takeWhile_imp before
  exact ⟨of_decide_eq_true goes, of_decide_eq_true kept⟩

theorem opens_eq (goes : de.first ≠ endMark) (kept : de.first ≠ deletedMark) : opens de = openable de := by
  have same : named (de.name ++ de.ext) de = true := decide_eq_true rfl
  rw [opens, open_entries_eq, live_cons goes kept, List.filter_cons]
  cases shown : openable de with
  | true =>
    rw [if_pos rfl, List.find?_cons, same]
    exact decide_eq_true rfl
  | false =>
    rw [if_neg Bool.false_ne_true]
    apply decide_eq_false
    have none : live ([] : List Dirent) = [] := rfl
    rw [none, List.filter_nil, List.find?_nil]
    dsimp only
    split <;> simp

theorem attr_split (attr : Byte) :
    (attr &&& (fatAttrLfn ||| fatAttrVolumeId ||| fatAttrDirectory) = 0 ↔
      attr &&& (fatAttrLfn ||| fatAttrVolumeId) = 0 ∧ attr &&& fatAttrDirectory = 0) ∧
    (attr &&& (fatAttrLfn ||| fatAttrVolumeId ||| fatAttrDirectory) = 0 ↔
      attr &&& 0x1E = 0 ∧ attr &&& fatAttrReadOnly = 0) := by
  revert attr
  decide

theorem listed_printed (shown : listed de = true) : printed de = true := by
  have both := (attr_split de.attr).2.mp (of_decide_eq_true shown)
  exact decide_eq_true both.1

theorem listed_opens (goes : de.first ≠ endMark) (kept : de.first ≠ deletedMark) :
    listed de = (opens de && !isDirectory de) := by
  rw [opens_eq goes kept, Bool.eq_iff_iff, Bool.and_eq_true, Bool.not_eq_true']
  have split := (attr_split de.attr).1
  constructor
  · intro shown
    obtain ⟨open_, file⟩ := split.mp (of_decide_eq_true shown)
    exact ⟨decide_eq_true open_, decide_eq_false (not_not_intro file)⟩
  · intro ⟨open_, file⟩
    have plain : de.attr &&& fatAttrDirectory = 0 := not_not.mp (of_decide_eq_false file)
    exact decide_eq_true (split.mpr ⟨of_decide_eq_true open_, plain⟩)

theorem printed_only_iff (attr : Byte) : attr &&& 0x1E = 0 ↔
    attr &&& (fatAttrHidden ||| fatAttrSystem ||| fatAttrVolumeId ||| fatAttrDirectory) = 0 := by
  revert attr
  decide

theorem entry_line_pos (de : Dirent) : 0 < (entryLine de).length := by
  rw [entryLine, line, List.length_append, List.length_singleton]
  exact Nat.succ_pos _

theorem lines_length {es : List Dirent} {narrow wide : Dirent → Bool}
    (wider : ∀ de, narrow de = true → wide de = true) :
    (lines (es.filter narrow)).length ≤ (lines (es.filter wide)).length ∧
      ((∃ de ∈ es, wide de = true ∧ narrow de = false) →
        (lines (es.filter narrow)).length < (lines (es.filter wide)).length) := by
  induction es with
  | nil =>
    constructor
    · exact Nat.le_refl _
    · rintro ⟨de, none, _⟩
      cases none
  | cons de rest ih =>
    obtain ⟨ihLe, ihLt⟩ := ih
    have long := entry_line_pos de
    cases inNarrow : narrow de with
    | true =>
      have inWide := wider de inNarrow
      simp only [List.filter_cons, inNarrow, inWide, ↓reduceIte, lines, List.flatMap_cons,
        List.length_append] at ihLe ihLt ⊢
      constructor
      · omega
      · rintro ⟨other, member, inOther, notOther⟩
        cases member with
        | head => rw [inNarrow] at notOther; cases notOther
        | tail _ later =>
          have more := ihLt ⟨other, later, inOther, notOther⟩
          omega
    | false =>
      cases inWide : wide de with
      | true =>
        simp only [List.filter_cons, inNarrow, inWide, ↓reduceIte, Bool.false_eq_true, lines,
          List.flatMap_cons, List.length_append] at ihLe ⊢
        constructor
        · omega
        · intro _
          omega
      | false =>
        simp only [List.filter_cons, inNarrow, inWide, ↓reduceIte, Bool.false_eq_true]
        constructor
        · exact ihLe
        · rintro ⟨other, member, inOther, notOther⟩
          apply ihLt
          cases member with
          | head => rw [inWide] at inOther; cases inOther
          | tail _ later => exact ⟨other, later, inOther, notOther⟩

theorem report_lines (es : List Dirent) : ((es.map report).map Prod.fst).flatMap line = lines es := by
  rw [List.map_map, List.flatMap_map]
  rfl

theorem found_always (read : SectorsRead fs) :
    fat16ListRoot fs = ((rootEntries fs).filter fun de => opens de && !isDirectory de).map report := by
  rw [list_root_eq read]
  congr 1
  apply List.filter_congr
  intro de member
  obtain ⟨goes, kept⟩ := live_first member
  exact listed_opens goes kept

theorem text_iff (read : SectorsRead fs) {buflen : Nat} (word : buflen < 2 ^ 32)
    (room : (lines ((rootEntries fs).filter printed)).length < buflen) :
    sysListdir fs buflen = ((fat16ListRoot fs).map Prod.fst).flatMap line ↔ NoPlainReadOnly fs := by
  rw [sys_listdir_eq read word room, list_root_eq read, report_lines]
  obtain ⟨_, longer⟩ := @lines_length (rootEntries fs) listed printed fun _ => listed_printed
  constructor
  · intro same de member plain
    by_contra readOnly
    have shown : printed de = true := decide_eq_true ((printed_only_iff de.attr).mpr plain)
    have skipped : listed de = false :=
      decide_eq_false fun free => readOnly ((attr_split de.attr).2.mp free).2
    have more := longer ⟨de, member, shown, skipped⟩
    rw [same] at more
    exact Nat.lt_irrefl _ more
  · intro none
    congr 1
    apply List.filter_congr
    intro de member
    rw [Bool.eq_iff_iff]
    constructor
    · intro shown
      have low : de.attr &&& 0x1E = 0 := of_decide_eq_true shown
      have writable := none de member ((printed_only_iff de.attr).mp low)
      exact decide_eq_true ((attr_split de.attr).2.mpr ⟨low, writable⟩)
    · exact listed_printed

end Agreement

/-- The scans agree unless the directory holds a plain read-only file: FAT_ATTR_LFN holds the
    read-only bit, and as a mask it makes fat16.c skip such a file, which SYS_LISTDIR prints. -/
theorem scanners_agree_iff (fs : Fs) (buflen : Nat) (read : SectorsRead fs) (word : buflen < 2 ^ 32)
    (room : (lines ((rootEntries fs).filter printed)).length < buflen) :
    ScannersAgree fs buflen ↔ NoPlainReadOnly fs := by
  constructor
  · intro agree
    exact (text_iff read word room).mp agree.text
  · intro none
    exact ⟨(text_iff read word room).mpr none, found_always read⟩

/-- One sector of the root directory with a file R and its attributes; an end mark follows. -/
def oneFile (attr : Byte) : Fs where
  blk _ := some fun i => if i = 0 then 0x52 else if i = 11 then attr else if i < 11 then space else 0
  bpb := ⟨1, 0, 1, 1⟩
  fatTable _ := 0xFFFF

theorem one_file_reads (attr : Byte) : SectorsRead (oneFile attr) := fun _ _ => rfl

theorem archive_file_agrees : ScannersAgree (oneFile fatAttrArchive) 512 :=
  (scanners_agree_iff (oneFile fatAttrArchive) 512 (one_file_reads fatAttrArchive) (by decide) (by decide)).mpr
    (by unfold NoPlainReadOnly; decide)

theorem read_only_file_hidden : ¬ ∀ (fs : Fs) (buflen : Nat), SectorsRead fs → buflen < 2 ^ 32 →
    (lines ((rootEntries fs).filter printed)).length < buflen → ScannersAgree fs buflen := by
  intro agree
  have text := (agree (oneFile fatAttrReadOnly) 512 (one_file_reads fatAttrReadOnly) (by decide) (by decide)).text
  have printedR : sysListdir (oneFile fatAttrReadOnly) 512 = [0x52, 0x0A] := by decide
  have reported : ((fat16ListRoot (oneFile fatAttrReadOnly)).map Prod.fst).flatMap line = [] := by decide
  rw [printedR, reported] at text
  cases text

end Archarch.Fat16
