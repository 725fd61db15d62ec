import Unixprog.Library.ProcMaps
import Unixprog.Sdb.Registers
import Unixprog.Sdb.Returns

/-! What vmmap prints of a maps file the kernel wrote. -/
namespace Unixprog.Sdb
open Words CStrings ProcMaps Runs

/-- The text of the messages of vmmap, through its formats `%016lx-`, `%016lx `, `%s `,
`%-8lx  ` and `%s`. -/
def Message.mapText : Message → List Char
  | .mapStart start => hexText 16 start.toNat ++ ['-']
  | .mapEnd stop => hexText 16 stop.toNat ++ [' ']
  | .mapPerms perms => perms ++ [' ']
  | .mapOffset offset => (Nat.toDigits 16 offset.toNat).rightpad 8 ' ' ++ [' ',' ']
  | .mapPath path => path
  | _ => []

def rowHead (m : Mapping) : List Char :=
  hexText 16 m.start.toNat ++ '-'::(hexText 16 m.stop.toNat ++ ' '::m.access)

def rowTail (m : Mapping) (name : List Char) : List Char :=
  (Nat.toDigits 16 m.offset.toNat).rightpad 8 ' ' ++ ' ':: ' '::name

/-- The line that reports a mapping: addresses, access permissions, offset, pathname. -/
def mapRow (m : Mapping) : List Char := rowHead m ++ ' '::rowTail m (m.path ++ ['\n'])

def printed (m : Mapping) : List Char := (vmmapLine m.line).flatMap Message.mapText

/-- vmmap reports the mappings in order, each on a line of its own. -/
def Reports (w : World) (s : Session) (content : List Mapping) : Prop :=
  (s.prints (vmmap w)).map (fun messages => messages.flatMap Message.mapText) = some (content.flatMap mapRow)

/-- A private mapping whose path has no blank and whose inode number is followed by one. -/
def Splits (m : Mapping) : Prop := m.shared = false ∧ ' ' ∉ m.path ∧ m.gap ≠ 0

section Line
variable (m : Mapping)

theorem strtok_perms (isPrivate : m.shared = false) :
    strtok ['p'] (m.perms ++ ' '::m.fromOffset) = (some m.access,' '::m.fromOffset) := by
  have split : m.perms ++ ' '::m.fromOffset = m.access ++ 'p':: ' '::m.fromOffset := by
    simp [Mapping.perms,isPrivate]
  rw [split]
  exact strtok_first (by simp [Mapping.access]) (access_plain m (by decide)) (by simp)

theorem strtok_perms_shared (isShared : m.shared = true) :
    ∃ more, (strtok ['p'] (m.perms ++ ' '::m.fromOffset)).1 = some (m.access ++ 's'::more) := by
  have split : m.perms ++ ' '::m.fromOffset = m.access ++ 's':: ' '::m.fromOffset := by
    simp [Mapping.perms,isShared]
  have plain := access_plain m (d := 'p') (by decide)
  have kept : (m.access ++ 's':: ' '::m.fromOffset).dropWhile (· ∈ ['p']) = m.access ++ 's':: ' '::m.fromOffset :=
    dropWhile_token (by simp [Mapping.access]) plain _
  rw [split,strtok_nonempty (by rw [kept]; simp),kept,takeWhile_token plain,List.takeWhile_cons_of_pos (by decide)]
  exact ⟨_,rfl⟩

theorem printed_private (isPrivate : m.shared = false) :
    printed m = rowHead m ++ ' '::rowTail m (m.nameToken.getD []) := by
  have offset := strtok_offset m [' '] (by simp)
  rw [List.singleton_append] at offset
  have name : (strtok [' '] m.fromName).1 = m.nameToken := rfl
  simp only [printed,vmmapLine,strtok_start,strtok_stop,strtok_perms m isPrivate,offset,strtok_device,strtok_inode,
    Option.map_some,strtoul16_hexText,name]
  cases m.nameToken <;> simp [Message.mapText,rowHead,rowTail]

theorem printed_shared (isShared : m.shared = true) : ∃ more, printed m = rowHead m ++ 's'::more := by
  obtain ⟨more,token⟩ := strtok_perms_shared m isShared
  simp only [printed,vmmapLine,strtok_start,strtok_stop,token,Option.map_some,strtoul16_hexText,Option.toList_some,
    List.flatMap_append,List.flatMap_cons,Message.mapText,rowHead,List.append_assoc,List.cons_append,List.nil_append]
  exact ⟨_,rfl⟩

theorem printed_head : ∃ more, printed m = rowHead m ++ more := by
  cases shared : m.shared with
  | false => exact ⟨_,printed_private m shared⟩
  | true =>
    obtain ⟨more,split⟩ := printed_shared m shared
    exact ⟨_,split⟩

theorem printed_splits (splits : Splits m) : printed m = mapRow m := by
  obtain ⟨isPrivate,plain,blank⟩ := splits
  rw [printed_private m isPrivate,nameToken_some m blank,firstWord_plain plain]
  rfl

end Line

/-! Where the texts first differ. -/

/-- A text that goes on with no blank and no newline. -/
def Fresh (text : List Char) : Prop := ∀ c ∈ text.head?, c ≠ ' ' ∧ c ≠ '\n'

theorem fresh_printed (content : List Mapping) : Fresh (content.flatMap printed) := by
  cases content with
  | nil =>
    intro c first
    cases first
  | cons m content =>
    obtain ⟨more,split⟩ := printed_head m
    obtain ⟨d,digits,start⟩ := List.exists_cons_of_ne_nil (hexText_some 16 m.start.toNat)
    have digit := hexText_hex 16 m.start.toNat d (by simp [start])
    intro c first
    simp only [List.flatMap_cons,split,rowHead,start,List.cons_append,List.head?_cons,Option.mem_def,
      Option.some.injEq] at first
    subst first
    exact ⟨hex_apart digit (by decide),hex_apart digit (by decide)⟩

theorem name_differs (m : Mapping) (bad : ¬ (' ' ∉ m.path ∧ m.gap ≠ 0)) (more rest : List Char) (fresh : Fresh more) :
    m.nameToken.getD [] ++ more ≠ m.path ++ '\n'::rest := by
  intro same
  by_cases none : m.gap = 0
  · rw [nameToken_none m none,pathless m none] at same
    subst same
    exact (fresh '\n' rfl).2 rfl
  have blank : ' ' ∈ m.path := by
    by_contra plain
    exact bad ⟨plain,none⟩
  obtain ⟨word,after,path,plain⟩ := List.eq_append_cons_of_mem blank
  rw [nameToken_some m none,path,Option.getD_some,List.append_assoc,List.cons_append] at same
  by_cases empty : word = []
  · obtain ⟨c,token,first⟩ := List.exists_cons_of_ne_nil (firstWord_some (word ++ ' '::after))
    have nonblank := firstWord_blank (word ++ ' '::after)
    rw [first] at same nonblank
    rw [empty,List.nil_append,List.cons_append,List.cons.injEq] at same
    rw [same.1] at nonblank
    exact nonblank List.mem_cons_self
  · rw [firstWord_cut empty plain] at same
    have rest := List.append_cancel_left same
    subst rest
    exact (fresh ' ' rfl).1 rfl

theorem printed_differs (m : Mapping) (bad : ¬ Splits m) (more rest : List Char) (fresh : Fresh more) :
    printed m ++ more ≠ mapRow m ++ rest := by
  intro same
  cases shared : m.shared with
  | true =>
    obtain ⟨token,split⟩ := printed_shared m shared
    rw [split,mapRow,List.append_assoc,List.append_assoc] at same
    have after := List.append_cancel_left same
    cases after
  | false =>
    rw [printed_private m shared,mapRow] at same
    simp only [rowTail,List.append_assoc,List.cons_append] at same
    have after := List.append_cancel_left same
    simp only [List.cons.injEq,true_and] at after
    have name := List.append_cancel_left after
    simp only [List.cons.injEq,true_and] at name
    exact name_differs m (fun good => bad ⟨shared,good⟩) more rest fresh (by simpa using name)

theorem printed_rows (content : List Mapping) :
    content.flatMap printed = content.flatMap mapRow ↔ ∀ m ∈ content, Splits m := by
  induction content with
  | nil => simp
  | cons m content ih =>
    rw [List.flatMap_cons,List.flatMap_cons,List.forall_mem_cons]
    constructor
    · intro same
      have splits : Splits m := by
        by_contra bad
        exact printed_differs m bad _ _ (fresh_printed content) same
      rw [printed_splits m splits] at same
      exact ⟨splits,ih.mp (List.append_cancel_left same)⟩
    · rintro ⟨splits,others⟩
      rw [printed_splits m splits,ih.mpr others]

/-! The whole file. -/

theorem reports_printed (w : World) (s : Session) (running : s.sdb.state = .running) (content : List Mapping)
    (maps : s.opens w (w.maps s.sdb.pid) = some (content.map Mapping.line)) :
    Reports w s content ↔ content.flatMap printed = content.flatMap mapRow := by
  have prints : s.prints (vmmap w) = some ((content.map Mapping.line).flatMap vmmapLine) := by
    have said := forM_say id ((content.map Mapping.line).flatMap vmmapLine) {s with opened := s.opened+1}
    simp only [id,List.map_id] at said
    simp only [Session.prints,vmmap,bind_run,read_run,andThen_done,running,ne_eq,not_true_eq_false,if_false,
      fopen_some maps]
    simp only [said,List.drop_left]
  rw [Reports,prints,Option.map_some,Option.some_inj,List.flatMap_map,List.flatMap_assoc]
  rfl

/-- Whatever else the file holds, the report is right exactly when every line splits. -/
theorem reports_iff_splits (w : World) (s : Session) (running : s.sdb.state = .running) (content : List Mapping)
    (maps : s.opens w (w.maps s.sdb.pid) = some (content.map Mapping.line)) :
    Reports w s content ↔ ∀ m ∈ content, Splits m :=
  (reports_printed w s running content maps).trans (printed_rows content)

def textMapping : Mapping :=
  ⟨0x400000,0x401000,true,false,true,false,0x1000,8,1,42,1,"/bin/a".toList,rfl,fun _ => by decide⟩

def sharedMapping : Mapping := {textMapping with shared := true}

def mapsWorld (content : List Mapping) : World :=
  {sampleWorld [] (fun _ _ _ => .ended (.exited 0)) with maps := fun _ => some (content.map Mapping.line)}

def mapsSession (content : List Mapping) : Session := sampleSession (mapsWorld content) [.load "a.out",.start]

theorem reports_iff_splits_text : Reports (mapsWorld [textMapping]) (mapsSession [textMapping]) [textMapping] :=
  (reports_iff_splits _ _ rfl _ rfl).mpr fun m member => by
    rw [List.mem_singleton.mp member]
    exact ⟨rfl,by decide,by decide⟩

theorem shared_misreported :
    Reachable (debugger (mapsWorld [sharedMapping])) (mapsSession [sharedMapping]) ∧
      (mapsSession [sharedMapping]).sdb.state = .running ∧
      ¬ Reports (mapsWorld [sharedMapping]) (mapsSession [sharedMapping]) [sharedMapping] := by
  refine ⟨sample_reachable _ _,rfl,?_⟩
  intro reports
  rw [reports_printed _ _ rfl _ rfl,printed_rows] at reports
  cases (reports _ List.mem_cons_self).1

end Unixprog.Sdb
