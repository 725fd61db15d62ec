import Unixprog.Hw1.Rows
import Unixprog.Library.ProcMaps

/-! One round of readMem's loop on a line as the kernel writes it. -/
namespace Unixprog.Hw1
open CStrings Aborts ProcMaps

/-- What atoi makes of the inode number. -/
def memKey (m : Mapping) : Int := (BitVec.ofInt 32 (min (m.inode.toNat : Int) (2^63-1))).toInt

def memRecord (p : Info) (key : Int) (word : Str) : Info :=
  if strstr (chomp word) "(deleted)".toList then
    {p with inode := key,fd := "DEL".toList,name := cutMarker p.name.length (chomp word)}
  else {p with inode := key,fd := "mem".toList,name := chomp word}

/-- Nothing is read or copied behind an array's end. -/
def Readable (prev word : Str) : Prop :=
  word.length < MAX_NAME_SIZE ∧ (strstr (chomp word) "(deleted)".toList = true → prev.length < MAX_NAME_SIZE)

section Lines
variable {w : World} {o : Options} {dict : List Int} {m : Mapping}

theorem atoi_inodeToken (m : Mapping) : atoi m.inodeToken = memKey m := by
  obtain ⟨c,tail,spelt⟩ := List.exists_cons_of_ne_nil (Nat.toDigits_ne_nil (n := m.inode.toNat) (b := 10))
  have first : (decDigit c).isSome = true := toDigits_dec m.inode.toNat c (by simp [spelt])
  have value := decDigits_toDigits m.inode.toNat
  have ended : decDigits 0 (Nat.toDigits 10 m.inode.toNat ++ ['\n']) = m.inode.toNat := decDigits_stop rfl _ _
  rw [atoi,memKey,Mapping.inodeToken]
  split
  next =>
    rw [spelt,List.cons_append] at ended ⊢
    rw [strtol10_digit first,ended]
  next =>
    rw [spelt] at value ⊢
    rw [strtol10_digit first,value]

theorem strtok_addresses (m : Mapping) : strtok [' '] m.line =
    (some (hexText 8 m.start.toNat ++ '-'::hexText 8 m.stop.toNat),m.perms ++ ' '::m.fromOffset) := by
  have line : m.line = (hexText 8 m.start.toNat ++ '-'::hexText 8 m.stop.toNat) ++ ' '::(m.perms ++ ' '::m.fromOffset) := by
    simp [Mapping.line]
  rw [line]
  refine strtok_first (by simp) ?_ (by simp)
  intro c member
  rcases List.mem_append.mp member with start | stop
  · exact hexText_plain (by decide) _ _ c start
  · rcases List.mem_cons.mp stop with rfl | stop
    · simp
    · exact hexText_plain (by decide) _ _ c stop

theorem strtok_perms (m : Mapping) : strtok [' '] (m.perms ++ ' '::m.fromOffset) = (some m.perms,m.fromOffset) := by
  refine strtok_first (by simp [Mapping.perms]) ?_ (by simp)
  intro c member
  rcases List.mem_append.mp member with access | sharing
  · exact access_plain m (by decide) c access
  · rw [List.mem_singleton.mp sharing]
    split <;> simp

theorem memLine_line (m : Mapping) : memLine w o dict m.line =
    if memKey m = 0 ∨ memKey m ∈ dict then pure dict
    else setInfo (fun p => {p with inode := memKey m}) >>= fun _ => memName m.nameToken >>= fun _ =>
      printPinfo w o >>= fun _ => pure (memKey m::dict) := by
  have offset := strtok_offset m [] (by simp)
  rw [List.nil_append] at offset
  simp only [memLine,strtok_addresses,strtok_perms,offset,strtok_device,strtok_inode,Option.map_some,atoi_inodeToken,
    Option.getD_some,Option.toList_some,List.singleton_append,Mapping.nameToken]
  simp

theorem memLine_skip (known : memKey m = 0 ∨ memKey m ∈ dict) (s : Scan) :
    (memLine w o dict m.line).run s = .returned dict s := by
  rw [memLine_line,if_pos known]
  rfl

theorem memName_run {word : Str} (nonempty : word ≠ []) (s : Scan) (readable : Readable s.p.name word) :
    (memName (some word)).run s = .returned () {s with p := memRecord s.p s.p.inode word} := by
  simp only [memName,bind_run,within_fits readable.1,andThen_returned,if_neg nonempty,current_run,ite_run,setInfo_run,
    memRecord]
  split
  next marked =>
    rw [within_fits (readable.2 marked),andThen_returned]
    rfl
  next => rfl

theorem memName_overruns {word : Str} (nonempty : word ≠ []) (s : Scan) (overruns : ¬ Readable s.p.name word) :
    (memName (some word)).run s = .stopped .undefined s := by
  simp only [memName,bind_run]
  by_cases fits : word.length < MAX_NAME_SIZE
  · have marked : strstr (chomp word) "(deleted)".toList = true ∧ ¬ s.p.name.length < MAX_NAME_SIZE := by
      simpa [Readable,fits] using overruns
    simp only [within_fits fits,andThen_returned,if_neg nonempty,bind_run,current_run,if_pos marked.1,
      within_over marked.2,andThen_stopped]
  · rw [within_over fits,andThen_stopped]

theorem memRecord_inode (p : Info) (key : Int) (word : Str) : (memRecord p key word).inode = key := by
  unfold memRecord
  split <;> rfl

theorem memRecord_fits {p : Info} {key : Int} {word : Str} (fits : word.length < MAX_NAME_SIZE) :
    (memRecord p key word).name.length < MAX_NAME_SIZE := by
  have chomped := chomp_length word
  have cut := cutMarker_length p.name.length (chomp word)
  unfold memRecord
  split <;> (dsimp only; omega)

/-! A line whose number is new. -/

theorem memLine_pathless (fresh : ¬ (memKey m = 0 ∨ memKey m ∈ dict)) (pathless : m.gap = 0) (s : Scan) :
    ∃ t, (memLine w o dict m.line).run s = .stopped (.exited 1) t ∧ t.handed = s.handed := by
  rw [memLine_line,if_neg fresh,nameToken_none m pathless]
  exact ⟨_,rfl,rfl⟩

theorem memLine_overruns (fresh : ¬ (memKey m = 0 ∨ memKey m ∈ dict)) (path : m.gap ≠ 0) (s : Scan)
    (overruns : ¬ Readable s.p.name (firstWord m.path)) : ∃ t, (memLine w o dict m.line).run s = .stopped .undefined t := by
  have stopped := memName_overruns (firstWord_some m.path) {s with p := {s.p with inode := memKey m}} overruns
  rw [memLine_line,if_neg fresh,nameToken_some m path,bind_run,setInfo_run,andThen_returned,bind_run,stopped]
  exact ⟨_,rfl⟩

theorem memLine_record (compile : o.Compile w) (fresh : ¬ (memKey m = 0 ∨ memKey m ∈ dict)) (path : m.gap ≠ 0)
    (s : Scan) (readable : Readable s.p.name (firstWord m.path)) : (memLine w o dict m.line).run s =
      .returned (memKey m::dict) {s with
        p := memRecord s.p (memKey m) (firstWord m.path)
        handed := s.handed ++ [memRecord s.p (memKey m) (firstWord m.path)]
        rows := s.rows ++ if passes w o (memRecord s.p (memKey m) (firstWord m.path)) then
          [row (memRecord s.p (memKey m) (firstWord m.path))] else []} := by
  have same : memRecord {s.p with inode := memKey m} (memKey m) (firstWord m.path) =
      memRecord s.p (memKey m) (firstWord m.path) := by
    unfold memRecord
    split <;> rfl
  have named := memName_run (firstWord_some m.path) {s with p := {s.p with inode := memKey m}} readable
  dsimp only at named
  rw [same] at named
  have printed := printPinfo_run (s := {s with p := memRecord s.p (memKey m) (firstWord m.path)}) compile
    (memRecord_fits readable.1)
  rw [memLine_line,if_neg fresh,nameToken_some m path,bind_run,setInfo_run,andThen_returned,bind_run,named,
    andThen_returned,bind_run,printed]
  rfl

end Lines

/-! The whole loop, with the numbers it has seen at its end. -/

def memDict (w : World) (o : Options) : List Int → List Str → Op (List Int)
  | dict,[] => pure dict
  | dict,line::rest => memLine w o dict line >>= fun dict => memDict w o dict rest

section Loop
variable {w : World} {o : Options}

theorem memLines_dict (dict : List Int) (lines : List Str) (s : Scan) : (memLines w o dict lines).run s =
    ((memDict w o dict lines).run s).andThen fun _ => pure () := by
  induction lines generalizing dict s with
  | nil => rfl
  | cons line rest ih =>
    simp only [memLines,memDict,bind_run]
    cases (memLine w o dict line).run s with
    | returned dict t => exact ih dict t
    | stopped why t => rfl

theorem memDict_append (dict : List Int) (before after : List Str) (s : Scan) :
    (memDict w o dict (before ++ after)).run s =
      ((memDict w o dict before).run s).andThen fun dict => memDict w o dict after := by
  induction before generalizing dict s with
  | nil => rfl
  | cons line rest ih =>
    simp only [List.cons_append,memDict,bind_run]
    cases (memLine w o dict line).run s with
    | returned dict t => exact ih dict t
    | stopped why t => rfl

theorem memDict_snoc {before : List Mapping} {dict seen : List Int} {s u : Scan} (m : Mapping)
    (ran : (memDict w o dict (before.map Mapping.line)).run s = .returned seen u) :
    (memDict w o dict ((before ++ [m]).map Mapping.line)).run s = (memLine w o seen m.line).run u := by
  rw [List.map_append,memDict_append,ran,andThen_returned]
  simp only [List.map_cons,List.map_nil,memDict,bind_run]
  cases (memLine w o seen m.line).run u <;> rfl

/-- readMem of a process whose maps file has these lines. -/
def readMaps (w : World) (o : Options) (x : Process) (lines : List Mapping) : Op Unit :=
  readMem w o {x with maps := some (lines.map Mapping.line)}

def opened (s : Scan) : Scan := {s with p := {s.p with type := "REG".toList}}

variable {x : Process}

theorem readMaps_run (lines : List Mapping) (s : Scan) : (readMaps w o x lines).run s =
    ((memDict w o [s.p.inode] (lines.map Mapping.line)).run (opened s)).andThen fun _ => pure () :=
  memLines_dict _ _ (opened s)

theorem readMaps_returns {lines : List Mapping} {s t : Scan} (ok : (readMaps w o x lines).run s = .returned () t) :
    ∃ dict, (memDict w o [s.p.inode] (lines.map Mapping.line)).run (opened s) = .returned dict t := by
  rw [readMaps_run] at ok
  cases ran : (memDict w o [s.p.inode] (lines.map Mapping.line)).run (opened s) with
  | stopped why u =>
    rw [ran] at ok
    cases ok
  | returned dict u =>
    rw [ran] at ok
    cases ok
    exact ⟨dict,rfl⟩

theorem readMaps_next {before : List Mapping} {s t : Scan} {dict : List Int} (m : Mapping)
    (ran : (memDict w o [s.p.inode] (before.map Mapping.line)).run (opened s) = .returned dict t) :
    (readMaps w o x (before ++ [m])).run s = ((memLine w o dict m.line).run t).andThen fun _ => pure () := by
  rw [readMaps_run,memDict_snoc m ran]

end Loop

def shellMapping : Mapping where
  start := 0x400000
  stop := 0x401000
  readable := true
  writable := false
  executable := true
  shared := false
  offset := 0
  major := 8
  minor := 1
  inode := 77
  gap := 1
  path := "/usr/bin/sh".toList
  text := by decide
  apart := by decide

end Unixprog.Hw1
