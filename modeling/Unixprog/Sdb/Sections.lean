import Unixprog.Library.Buffers
import Unixprog.Sdb.Lifecycle

/-! The section that load settles on, beside the `.text` section of the file. -/
namespace Unixprog.Sdb
open Words Buffers

/-! What the file says. -/

/-- An offset is an off_t: the file has nothing from 2^63 on. -/
def slice (bytes : List Byte) (offset count : Nat) : List Byte :=
  if offset < 2^63 then (bytes.drop offset).take count else []

def recordAt (bytes : List Byte) (offset : Nat) : Option Record :=
  if whole : (slice bytes offset 64).length = 64 then some ⟨(slice bytes offset 64).toArray,by simpa using whole⟩
  else none

def eShentsize (elf : Record) : Nat := field elf 58 2

def sectionAt (bytes : List Byte) (elf : Record) (i : Nat) : Option Record :=
  recordAt bytes ((eShoff elf).toNat+eShentsize elf*i)

def sections (bytes : List Byte) (elf : Record) : List Record :=
  (List.range (eShnum elf)).filterMap (sectionAt bytes elf)

/-- The section-name string table, as far as it lies in the file. -/
def stringTable (bytes : List Byte) (elf : Record) : List Byte :=
  match sectionAt bytes elf (eShstrndx elf) with
  | none => []
  | some header => slice bytes (shOffset header).toNat (shSize header).toNat

def named (table : List Byte) (sect : Record) : Bool := decide (textName <+: table.drop (shName sect))

/-- The string table ends before the name is told from `.text`. -/
def CutOff (table : List Byte) (sect : Record) : Prop := table.drop (shName sect) <+: textName

instance (table : List Byte) (sect : Record) : Decidable (CutOff table sect) :=
  inferInstanceAs (Decidable (_ <+: _))

def firstText (bytes : List Byte) (elf : Record) : Option Record :=
  (sections bytes elf).find? (named (stringTable bytes elf))

/-! What load reads. -/

theorem fill_toList (old : Record) (got : List Byte) (short : got.length ≤ 64) :
    (fill old got).toList = got ++ old.toList.drop got.length := by
  apply List.ext_getElem
  · simp only [Vector.length_toList,List.length_append,List.length_drop]
    omega
  · intro i first second
    simp only [Vector.getElem_toList,fill,Vector.getElem_ofFn,Fin.getElem_fin]
    obtain inside | outside := Nat.lt_or_ge i got.length
    · rw [List.getElem_append_left inside,List.getElem?_eq_getElem inside,Option.getD_some]
    · rw [List.getElem_append_right outside,List.getElem?_eq_none outside,Option.getD_none,List.getElem_drop,
        Vector.getElem_toList]
      congr 1
      omega

theorem fread_header (bytes : List Byte) (old : Record) (magic : bytes.take 4 = elfMagic) :
    eIdent (fill old (fread ⟨bytes,0⟩ 64).1) = elfMagic := by
  have long : 4 ≤ bytes.length := by
    have sizes := congrArg List.length magic
    simp only [List.length_take,elfMagic,List.length_cons,List.length_nil] at sizes
    omega
  rw [eIdent,fill_toList old _ (by simp [fread]),List.take_append_of_le_length (by simp [fread]; omega),← magic]
  simp [fread,List.take_take]

/-- A load of an ELF file ends in LOADED, whatever was found. -/
theorem load_elf {w : World} {fileName : String} {bytes : List Byte} {s : Session}
    (idle : s.sdb.state = .notLoaded) (opened : s.opens w (w.file fileName) = some bytes)
    (magic : bytes.take 4 = elfMagic) (sound : s.sdb.faults w bytes = false) :
    ∃ t, (load w fileName).run s = .done () t ∧ t.sdb.state = .loaded ∧ t.sdb.sectHeader = s.sdb.textPicked w bytes := by
  have accepted := load_accepted idle opened (decide_eq_true (fread_header bytes s.sdb.elfHeader magic))
  rw [if_neg (by simp [sound])] at accepted
  exact ⟨_,accepted,by simp only [say_sdb,SDB.loads],by simp only [say_sdb,SDB.loads]⟩

theorem load_sound {w : World} {fileName : String} {bytes : List Byte} {s t : Session}
    (idle : s.sdb.state = .notLoaded) (opened : s.opens w (w.file fileName) = some bytes)
    (magic : bytes.take 4 = elfMagic) (ok : (load w fileName).run s = .done () t) : s.sdb.faults w bytes = false := by
  have accepted := load_accepted idle opened (decide_eq_true (fread_header bytes s.sdb.elfHeader magic))
  by_contra faults
  rw [if_pos (by simpa using faults)] at accepted
  obtain ⟨u,ended,_⟩ := accepted
  rw [ok] at ended
  cases ended

/-! A header in the file is read as it is. -/

theorem slice_small (bytes : List Byte) (offset count : Nat) (small : offset < 2^63) :
    slice bytes offset count = (bytes.drop offset).take count := if_pos small

theorem recordAt_some {bytes : List Byte} {offset : Nat} {header : Record}
    (found : recordAt bytes offset = some header) :
    offset < 2^63 ∧ offset+64 ≤ bytes.length ∧ header.toList = (bytes.drop offset).take 64 := by
  unfold recordAt at found
  split at found
  next whole =>
    have small : offset < 2^63 := by
      by_contra large
      rw [slice,if_neg large] at whole
      cases whole
    rw [slice_small _ _ _ small] at whole
    cases found
    refine ⟨small,?_,by simp [Vector.toList,slice_small _ _ _ small]⟩
    simp only [List.length_take,List.length_drop] at whole
    omega
  next => cases found

theorem recordAt_none {bytes : List Byte} {offset later : Nat} (missing : recordAt bytes offset = none)
    (after : offset ≤ later) : recordAt bytes later = none := by
  cases found : recordAt bytes later with
  | none => rfl
  | some header =>
    obtain ⟨small,inside,_⟩ := recordAt_some found
    unfold recordAt at missing
    split at missing
    next => cases missing
    next short =>
      rw [slice_small _ _ _ (by omega),List.length_take,List.length_drop] at short
      omega

theorem fread_record {bytes : List Byte} {offset : Nat} {header : Record} (old : Record)
    (found : recordAt bytes offset = some header) :
    fill old (fread ⟨bytes,offset⟩ 64).1 = header ∧ (fread ⟨bytes,offset⟩ 64).2 = ⟨bytes,offset+64⟩ := by
  obtain ⟨_,inside,content⟩ := recordAt_some found
  have length : ((bytes.drop offset).take 64).length = 64 := by
    simp only [List.length_take,List.length_drop]
    omega
  refine ⟨?_,by simp only [fread,length]⟩
  rw [← Vector.toList_inj,fill_toList _ _ (by simp [fread]),content]
  simp only [fread,length]
  have full : old.toList.drop 64 = [] := List.drop_eq_nil_of_le (by simp)
  rw [full,List.append_nil]

theorem fseek_small (fp : File) (offset : Word) (small : offset.toNat < 2^63) :
    fseek fp offset = {fp with pos := offset.toNat} := by
  have positive : offset.msb = false := BitVec.msb_eq_false_iff_two_mul_lt.mpr (by omega)
  rw [fseek,positive]
  rfl

/-! The loop over the section table. -/

section Loop
variable {bytes : List Byte} {start : Nat}

def headersFrom (bytes : List Byte) (start first count : Nat) : List Record :=
  (List.range' first count).filterMap fun i => recordAt bytes (start+64*i)

theorem headersFrom_missing {first : Nat} (count : Nat) (missing : recordAt bytes (start+64*first) = none) :
    headersFrom bytes start first count = [] := by
  rw [headersFrom,List.filterMap_eq_nil_iff]
  intro i later
  rw [List.mem_range'_1] at later
  exact recordAt_none missing (by omega)

theorem headersFrom_cons {first : Nat} {header : Record} (count : Nat)
    (found : recordAt bytes (start+64*first) = some header) :
    headersFrom bytes start first (count+1) = header::headersFrom bytes start (first+1) count := by
  simp only [headersFrom,List.range'_succ,List.filterMap_cons,found]

def before (table : List Byte) (headers : List Record) : List Record := headers.takeWhile fun sect => !named table sect

/-- While a header of that name is ahead, the loop stays in the name table exactly
if no name is cut off by its end, and then it stops at that header. -/
theorem findText_first (table : List Byte) (behind : Nat → Byte) (text : Record) (count first : Nat) (sect : Record)
    (ahead : (headersFrom bytes start first count).find? (named table) = some text) :
    ((∀ i ∈ namesRead (readAt table behind) count ⟨bytes,start+64*first⟩ sect, i < table.length) ↔
        ∀ header ∈ before table (headersFrom bytes start first count), ¬ CutOff table header) ∧
      ((∀ i ∈ namesRead (readAt table behind) count ⟨bytes,start+64*first⟩ sect, i < table.length) →
        findText (readAt table behind) count ⟨bytes,start+64*first⟩ sect = text) := by
  induction count generalizing first sect with
  | zero => simp [headersFrom] at ahead
  | succ count ih =>
    cases found : recordAt bytes (start+64*first) with
    | none =>
      rw [headersFrom_missing _ found] at ahead
      cases ahead
    | some header =>
      obtain ⟨read,moved⟩ := fread_record sect found
      rw [headersFrom_cons count found] at ahead ⊢
      have next : start+64*first+64 = start+64*(first+1) := by omega
      simp only [namesRead,findText,read,moved,next,isText]
      cases name : named table header with
      | true =>
        rw [List.find?_cons_of_pos name] at ahead
        cases ahead
        have present : textName <+: table.drop (shName text) := of_decide_eq_true name
        have equal := agrees_present table behind _ _ present
        have inside := (compared_inside table behind (shName text) textName).mpr fun _ => present
        simpa only [equal,if_true,List.append_nil,before,name,List.takeWhile_cons,Bool.not_true,Bool.false_eq_true,
          if_false,List.not_mem_nil,false_imp_iff,implies_true,and_true,iff_true] using inside
      | false =>
        rw [List.find?_cons_of_neg (by simp [name])] at ahead
        obtain ⟨reads,lands⟩ := ih (first+1) header ahead
        have absent : ¬ textName <+: table.drop (shName header) := of_decide_eq_false name
        have cutting : (∀ i ∈ compared (readAt table behind) (shName header) textName, i < table.length) ↔
            ¬ CutOff table header := by
          rw [compared_inside,CutOff]
          simp only [absent,imp_false]
        have differs (inside : ∀ i ∈ compared (readAt table behind) (shName header) textName, i < table.length) :
            agrees (readAt table behind) (shName header) textName = false :=
          Bool.eq_false_of_not_eq_true fun equal => absent (present_of_agrees table behind _ _ inside equal)
        have listed : before table (header::headersFrom bytes start (first+1) count) =
            header::before table (headersFrom bytes start (first+1) count) := by
          simp only [before,List.takeWhile_cons,name,Bool.not_false,if_true]
        rw [listed,List.forall_mem_cons,List.forall_mem_append,cutting]
        refine ⟨and_congr_right fun whole => ?_,?_⟩
        · simpa only [differs (cutting.mpr whole),Bool.false_eq_true,if_false] using reads
        · rintro ⟨whole,rest⟩
          simp only [differs (cutting.mpr whole),Bool.false_eq_true,if_false] at rest ⊢
          exact lands rest

end Loop

/-! What load makes of a file. -/

def usesShdrs (bytes : List Byte) : Prop := (bytes.drop 58).take 2 = [64#8,0#8]

def textSection (bytes : List Byte) : Option Record := (recordAt bytes 0).bind (firstText bytes)

def nameTable (bytes : List Byte) : List Byte := ((recordAt bytes 0).map (stringTable bytes)).getD []

structure FindsText (w : World) (fileName : String) (bytes : List Byte) (s : Session) : Prop where
  found : ∀ text, textSection bytes = some text → ∃ t, (load w fileName).run s = .done () t ∧
    t.sdb.state = .loaded ∧ ∀ addr : Word, t.sdb.inText addr = true ↔ (shAddr text).toNat ≤ addr.toNat ∧
      addr.toNat < (shAddr text).toNat+(shSize text).toNat
  refused : textSection bytes = none → ∃ t, (load w fileName).run s = .done () t ∧ t.sdb.state = .notLoaded
  inside : ∀ i ∈ s.sdb.textReads w bytes, i < (nameTable bytes).length

/-- A `.text` section that ends below 2^64, and before it no section whose name
the string table cuts off inside ".text". There is memory for the table, as long as
its header says that it is, and for the file. -/
def Findable (w : World) (bytes : List Byte) : Prop :=
  ∃ elf text strings, recordAt bytes 0 = some elf ∧ firstText bytes elf = some text ∧
    sectionAt bytes elf (eShstrndx elf) = some strings ∧ w.malloc (shSize strings).toNat = true ∧
    w.malloc bytes.length = true ∧ (shAddr text).toNat+(shSize text).toNat < 2^64 ∧
    ∀ header ∈ before (stringTable bytes elf) (sections bytes elf), ¬ CutOff (stringTable bytes elf) header

theorem eShentsize_shdrs {bytes : List Byte} {elf : Record} (uses : usesShdrs bytes)
    (found : recordAt bytes 0 = some elf) : eShentsize elf = 64 := by
  obtain ⟨_,_,content⟩ := recordAt_some found
  have cell (k : Nat) (small : k < 2) : elf[58+k]? = [64#8,0#8][k]? := by
    rw [← Vector.getElem?_toList,content,← uses,List.getElem?_take_of_lt (by omega),List.getElem?_take_of_lt small,
      List.getElem?_drop,List.getElem?_drop,Nat.zero_add]
  have low := cell 0 (by omega)
  have high := cell 1 (by omega)
  simp only [eShentsize,field,List.range_succ,List.range_zero,List.nil_append,List.cons_append,List.foldr_cons,
    List.foldr_nil,low,high]
  rfl

theorem sections_shdrs {bytes : List Byte} {elf : Record} (size : eShentsize elf = 64) :
    sections bytes elf = headersFrom bytes (eShoff elf).toNat 0 (eShnum elf) := by
  have same : sectionAt bytes elf = fun i => recordAt bytes ((eShoff elf).toNat+64*i) := by
    funext i
    rw [sectionAt,size]
  rw [sections,headersFrom,List.range_eq_range',same]

theorem readNames_table {bytes : List Byte} {elf : Record} (old : Record) (pos : Nat) (size : eShentsize elf = 64)
    (present : stringTable bytes elf ≠ []) :
    sectionAt bytes elf (eShstrndx elf) = some (readNames elf old ⟨bytes,pos⟩).strings ∧
      (readNames elf old ⟨bytes,pos⟩).got = stringTable bytes elf ∧
      (readNames elf old ⟨bytes,pos⟩).fp.bytes = bytes := by
  unfold stringTable at present ⊢
  cases listed : sectionAt bytes elf (eShstrndx elf) with
  | none => simp [listed] at present
  | some header =>
    simp only [listed] at present ⊢
    rw [sectionAt,size] at listed
    have small : (shOffset header).toNat < 2^63 := by
      by_contra large
      exact present (if_neg large)
    obtain ⟨bound,_,_⟩ := recordAt_some listed
    have offset : (eShoff elf+BitVec.ofNat 64 (eShstrndx elf)*64).toNat = (eShoff elf).toNat+64*eShstrndx elf := by
      have width : (64 : Word).toNat = 64 := rfl
      simp only [BitVec.toNat_add,BitVec.toNat_mul,BitVec.toNat_ofNat,width]
      omega
    have here := fseek_small ⟨bytes,pos⟩ (eShoff elf+BitVec.ofNat 64 (eShstrndx elf)*64) (by rw [offset]; exact bound)
    rw [offset] at here
    obtain ⟨read,moved⟩ := fread_record old listed
    simp only [readNames,here,read,moved,fseek_small _ _ small,slice_small _ _ _ small]
    simp only [fread,and_self]

/-- The string table that a name is found in is not empty. -/
theorem stringTable_some {bytes : List Byte} {elf text : Record} (first : firstText bytes elf = some text) :
    stringTable bytes elf ≠ [] := by
  have holds := List.find?_some first
  have name : textName <+: (stringTable bytes elf).drop (shName text) := of_decide_eq_true holds
  intro empty
  rw [empty,List.drop_nil] at name
  exact absurd (List.prefix_nil.mp name) (by decide)

theorem inText_iff (d : SDB) (addr : Word) :
    d.inText addr = true ↔ (shAddr d.sectHeader).toNat ≤ addr.toNat ∧
      addr.toNat < ((shAddr d.sectHeader).toNat+(shSize d.sectHeader).toNat)%2^64 := by
  simp only [SDB.inText,Bool.and_eq_true,decide_eq_true_eq,BitVec.le_def,BitVec.lt_def,BitVec.toNat_add]

theorem inText_exact (d : SDB) :
    (∀ addr : Word, d.inText addr = true ↔ (shAddr d.sectHeader).toNat ≤ addr.toNat ∧
      addr.toNat < (shAddr d.sectHeader).toNat+(shSize d.sectHeader).toNat) ↔
      (shAddr d.sectHeader).toNat+(shSize d.sectHeader).toNat < 2^64 := by
  constructor
  · intro exact
    have first := (inText_iff d (shAddr d.sectHeader)).symm.trans (exact (shAddr d.sectHeader))
    omega
  · intro fits addr
    rw [inText_iff,Nat.mod_eq_of_lt fits]

theorem textPicked_first {bytes : List Byte} {elf text : Record} (w : World) (d : SDB)
    (size : eShentsize elf = 64) (header : recordAt bytes 0 = some elf) (first : firstText bytes elf = some text) :
    ((∀ i ∈ d.textReads w bytes, i < (stringTable bytes elf).length) ↔
        ∀ header ∈ before (stringTable bytes elf) (sections bytes elf), ¬ CutOff (stringTable bytes elf) header) ∧
      ((∀ i ∈ d.textReads w bytes, i < (stringTable bytes elf).length) → d.textPicked w bytes = text) := by
  obtain ⟨read,moved⟩ := fread_record d.elfHeader header
  obtain ⟨i,_,listed⟩ := List.mem_filterMap.mp (List.mem_of_find?_eq_some first)
  have small : (eShoff elf).toNat < 2^63 := by
    have bound := (recordAt_some listed).1
    omega
  obtain ⟨_,got,kept⟩ := readNames_table d.sectHeader 64 size (stringTable_some first)
  have opened := fseek_small (readNames elf d.sectHeader ⟨bytes,64⟩).fp (eShoff elf) small
  rw [kept] at opened
  unfold firstText at first
  rw [sections_shdrs size] at first ⊢
  have names : sectName w (stringTable bytes elf) = readAt (stringTable bytes elf) w.heap := rfl
  have loop := findText_first (stringTable bytes elf) w.heap text (eShnum elf) 0
    (readNames elf d.sectHeader ⟨bytes,64⟩).strings first
  simpa only [SDB.textReads,SDB.textPicked,read,moved,Nat.zero_add,opened,got,names,Nat.mul_zero,Nat.add_zero] using loop

/-- Where no name is read past the table, a load faults only for want of a buffer. -/
theorem sound_iff {bytes : List Byte} {elf text : Record} (w : World) (d : SDB) (size : eShentsize elf = 64)
    (header : recordAt bytes 0 = some elf) (first : firstText bytes elf = some text)
    (inside : ∀ i ∈ d.textReads w bytes, i < (stringTable bytes elf).length) :
    d.faults w bytes = false ↔ w.malloc bytes.length = true ∧
      ∃ strings, sectionAt bytes elf (eShstrndx elf) = some strings ∧ w.malloc (shSize strings).toNat = true := by
  obtain ⟨read,moved⟩ := fread_record d.elfHeader header
  have present := stringTable_some first
  obtain ⟨listed,got,_⟩ := readNames_table d.sectHeader 64 size present
  have file : bytes ≠ [] := by
    rintro rfl
    cases header
  have short : (stringTable bytes elf).length ≤ (shSize (readNames elf d.sectHeader ⟨bytes,64⟩).strings).toNat := by
    rw [← got]
    simp only [readNames,fread,List.length_take]
    exact Nat.min_le_left _ _
  have whole : (d.textReads w bytes).any (fun i =>
      decide ((shSize (readNames elf d.sectHeader ⟨bytes,64⟩).strings).toNat ≤ i) && !w.mapped i) = false := by
    rw [List.any_eq_false]
    intro i member
    have within := inside i member
    simp only [Bool.and_eq_true,decide_eq_true_eq,not_and]
    omega
  simp only [SDB.faults,read,moved,Nat.zero_add,World.faults,got,whole,listed,Option.some.injEq,exists_eq_left']
  cases w.malloc (shSize (readNames elf d.sectHeader ⟨bytes,64⟩).strings).toNat <;> cases w.malloc bytes.length <;>
    simp [present,file]

def elfFile (kind : Byte) (shnum offset size : Nat) (code : List Byte) : List Byte :=
  elfMagic ++ [kind] ++ littleEndian 35 0 ++ littleEndian 8 64 ++ littleEndian 10 0 ++ littleEndian 2 64 ++
    littleEndian 2 shnum ++ littleEndian 2 0 ++
    (littleEndian 24 0 ++ littleEndian 8 192 ++ littleEndian 8 7 ++ littleEndian 24 0) ++
    (littleEndian 4 1 ++ littleEndian 12 0 ++ littleEndian 8 0x1000 ++ littleEndian 8 offset ++
      littleEndian 8 size ++ littleEndian 24 0) ++ 0#8::textName ++ code

def elfWorld (file : List Byte) : World := {crashing with file := fun _ => some file}

def textlessFile : List Byte := elfFile 2 1 199 2 [0x90#8,0x90#8]

def textFile : List Byte := elfFile 2 2 199 2 [0x90#8,0x90#8]

end Unixprog.Sdb
