import Unixprog.Hw1.MapLines

/-! The names that readMem gives to mapped files, row by row. -/
namespace Unixprog.Hw1
open CStrings Aborts ProcMaps

/-- A mapped file. To the path of a deleted one the kernel appends the marker. -/
structure Area where
  mapping : Mapping
  file : Str
  deleted : Bool
  spelt : mapping.path = file ++ if deleted then " (deleted)".toList else []

def Names (a : Area) (p : Info) : Prop := p.name = a.file ∧ p.fd = if a.deleted then "DEL".toList else "mem".toList

/-- Whenever readMem gets through the lines in front of one, its row (if it prints one)
names the file, and the line does no harm. -/
def NamesRight (w : World) (o : Options) (x : Process) (areas : List Area) (s : Scan) : Prop :=
  ∀ before a after, areas = before ++ a::after → ∀ t,
    (readMaps w o x (before.map Area.mapping)).run s = .returned () t →
      (∀ u, (readMaps w o x (before.map Area.mapping ++ [a.mapping])).run s ≠ .stopped .undefined u) ∧
        Hands (Names a) t ((readMaps w o x (before.map Area.mapping ++ [a.mapping])).run s).state

/-- Behind a row whose name is `prev`. -/
def Area.NamedBehind (prev : Str) (a : Area) : Prop :=
  ' ' ∉ a.file ∧ if a.deleted then
      "(deleted)".toList <:+: a.file ∧ a.file.length < MAX_NAME_SIZE ∧ prev.length < MAX_NAME_SIZE ∧
        (prev.length < 10 ∨ a.file.length+9 ≤ prev.length)
    else ¬ "(deleted)".toList <:+: a.file ∧ a.file.length+1 < MAX_NAME_SIZE

/-- `dict` are the numbers seen before, `prev` is the name in the record. -/
def NamesKept (dict : List Int) (prev : Str) : List Area → Prop
  | [] => True
  | a::rest =>
    if memKey a.mapping = 0 ∨ memKey a.mapping ∈ dict then NamesKept dict prev rest
    else if a.mapping.gap = 0 then True
    else a.NamedBehind prev ∧ NamesKept (memKey a.mapping::dict) a.file rest

section Names
variable {a : Area} {p : Info} {key : Int}

theorem file_newline (a : Area) : a.file.getLast? ≠ some '\n' := by
  intro last
  have inside : '\n' ∈ a.mapping.path := by
    rw [a.spelt]
    exact List.mem_append_left _ (List.mem_of_getLast? last)
  exact path_newline _ inside

theorem memRecord_starts (p : Info) (key : Int) (word : Str) : (memRecord p key word).name <+: word := by
  have chomped : chomp word <+: word := by
    unfold chomp
    split
    next => exact List.dropLast_prefix word
    next => exact List.prefix_rfl
  unfold memRecord
  split
  next => exact (List.take_prefix _ _).trans chomped
  next => exact chomped

theorem spaced_wrong (blank : ' ' ∈ a.file) : ¬ Names a (memRecord p key (firstWord a.mapping.path)) := by
  rintro ⟨named,-⟩
  have within := (memRecord_starts p key (firstWord a.mapping.path)).subset (named ▸ blank)
  exact firstWord_blank _ within

theorem columns_apart : "DEL".toList ≠ "mem".toList := by decide

theorem memRecord_marked {word : Str} (found : strstr (chomp word) "(deleted)".toList = true) : memRecord p key word =
    {p with inode := key,fd := "DEL".toList,name := cutMarker p.name.length (chomp word)} := if_pos found

theorem memRecord_plain {word : Str} (missed : ¬ strstr (chomp word) "(deleted)".toList = true) :
    memRecord p key word = {p with inode := key,fd := "mem".toList,name := chomp word} := if_neg missed

theorem kept_iff (plain : ' ' ∉ a.file) (kept : a.deleted = false) :
    (Readable p.name (firstWord a.mapping.path) ∧ Names a (memRecord p key (firstWord a.mapping.path))) ↔
      ¬ "(deleted)".toList <:+: a.file ∧ a.file.length+1 < MAX_NAME_SIZE := by
  have word : firstWord a.mapping.path = a.file ++ ['\n'] := by
    rw [a.spelt,kept]
    simpa using firstWord_plain plain
  rw [word]
  by_cases marked : "(deleted)".toList <:+: a.file
  · have found : strstr (chomp (a.file ++ ['\n'])) "(deleted)".toList = true := by
      rw [chomp_newline]
      exact (strstr_iff _ _).mpr marked
    constructor
    · rintro ⟨-,-,column⟩
      rw [memRecord_marked found,kept] at column
      exact absurd column columns_apart
    · exact fun holds => absurd marked holds.1
  · have missed : ¬ strstr (chomp (a.file ++ ['\n'])) "(deleted)".toList = true := by
      rw [chomp_newline]
      exact fun found => marked ((strstr_iff _ _).mp found)
    rw [memRecord_plain missed]
    constructor
    · rintro ⟨⟨fits,-⟩,-⟩
      exact ⟨marked,by simpa using fits⟩
    · rintro ⟨-,fits⟩
      exact ⟨⟨by simpa using fits,fun found => absurd found missed⟩,chomp_newline _,by rw [kept]; rfl⟩

theorem cut_whole {old : Nat} {file : Str} (small : old < MAX_NAME_SIZE) (fits : file.length < MAX_NAME_SIZE) :
    cutMarker old file = file ↔ old < 10 ∨ file.length+9 ≤ old := by
  rw [cutMarker,List.take_eq_self_iff]
  simp only [MAX_NAME_SIZE] at small fits
  omega

theorem deleted_iff (plain : ' ' ∉ a.file) (deleted : a.deleted = true) :
    (Readable p.name (firstWord a.mapping.path) ∧ Names a (memRecord p key (firstWord a.mapping.path))) ↔
      "(deleted)".toList <:+: a.file ∧ a.file.length < MAX_NAME_SIZE ∧ p.name.length < MAX_NAME_SIZE ∧
        (p.name.length < 10 ∨ a.file.length+9 ≤ p.name.length) := by
  have path : a.mapping.path = a.file ++ " (deleted)".toList := by rw [a.spelt,deleted]; rfl
  by_cases empty : a.file = []
  · -- Only the marker is read, and its first character always stays.
    have word : firstWord a.mapping.path = "(deleted)\n".toList := by
      rw [path,empty]
      decide
    constructor
    · rintro ⟨-,named,-⟩
      rw [word,memRecord_marked (by decide),empty] at named
      have length := congrArg List.length named
      rw [cutMarker,List.length_take] at length
      have nine : (chomp "(deleted)\n".toList).length = 9 := by decide
      rw [nine,List.length_nil] at length
      omega
    · rintro ⟨marked,-⟩
      rw [empty] at marked
      exact absurd ((strstr_iff _ _).mpr marked) (by decide)
  have word : firstWord a.mapping.path = a.file := by
    rw [path]
    exact firstWord_cut empty plain
  have whole : chomp a.file = a.file := if_neg (file_newline a)
  rw [word]
  by_cases marked : "(deleted)".toList <:+: a.file
  · have found : strstr (chomp a.file) "(deleted)".toList = true := by
      rw [whole]
      exact (strstr_iff _ _).mpr marked
    rw [memRecord_marked found,whole]
    constructor
    · rintro ⟨⟨fits,small⟩,named,-⟩
      have small := small found
      exact ⟨marked,fits,small,(cut_whole small fits).mp named⟩
    · rintro ⟨-,fits,small,long⟩
      exact ⟨⟨fits,fun _ => small⟩,(cut_whole small fits).mpr long,by rw [deleted]; rfl⟩
  · have missed : ¬ strstr (chomp a.file) "(deleted)".toList = true := by
      rw [whole]
      exact fun found => marked ((strstr_iff _ _).mp found)
    constructor
    · rintro ⟨-,-,column⟩
      rw [memRecord_plain missed,deleted] at column
      exact absurd column.symm columns_apart
    · exact fun holds => absurd holds.1 marked

theorem named_iff (a : Area) (p : Info) (key : Int) :
    (Readable p.name (firstWord a.mapping.path) ∧ Names a (memRecord p key (firstWord a.mapping.path))) ↔
      a.NamedBehind p.name := by
  unfold Area.NamedBehind
  by_cases blank : ' ' ∈ a.file
  · exact ⟨fun holds => absurd holds.2 (spaced_wrong blank),fun holds => absurd blank holds.1⟩
  cases deleted : a.deleted with
  | false => rw [kept_iff blank deleted]; simp [blank]
  | true => rw [deleted_iff blank deleted]; simp [blank]

end Names

section Loop
variable {w : World} {o : Options} {dict : List Int} {a : Area}

/-- What is asked of the line of an area when the loop is at it. -/
def LineRight (w : World) (o : Options) (dict : List Int) (a : Area) (s : Scan) : Prop :=
  (∀ u, (memLine w o dict a.mapping.line).run s ≠ .stopped .undefined u) ∧
    Hands (Names a) s ((memLine w o dict a.mapping.line).run s).state

theorem line_fresh_iff (compile : o.Compile w) (fresh : ¬ (memKey a.mapping = 0 ∨ memKey a.mapping ∈ dict))
    (path : a.mapping.gap ≠ 0) (s : Scan) : LineRight w o dict a s ↔ a.NamedBehind s.p.name := by
  rw [← named_iff a s.p (memKey a.mapping),LineRight]
  by_cases readable : Readable s.p.name (firstWord a.mapping.path)
  · rw [memLine_record compile fresh path s readable]
    constructor
    · rintro ⟨-,new,same,names⟩
      refine ⟨readable,names _ ?_⟩
      rw [← List.append_cancel_left same]
      exact List.mem_singleton_self _
    · rintro ⟨-,names⟩
      refine ⟨(fun u impossible => by cases impossible),[_],rfl,fun q member => ?_⟩
      rw [List.mem_singleton.mp member]
      exact names
  · obtain ⟨t,stopped⟩ := memLine_overruns (w := w) (o := o) fresh path s readable
    exact ⟨fun right => absurd stopped (right.1 t),fun holds => absurd holds.1 readable⟩

/-- The same of every line of the rest, in the state in which the loop reaches it. -/
def LoopRight (w : World) (o : Options) (dict : List Int) (areas : List Area) (s : Scan) : Prop :=
  ∀ before a after, areas = before ++ a::after → ∀ seen t,
    (memDict w o dict (before.map fun b => b.mapping.line)).run s = .returned seen t → LineRight w o seen a t

theorem loopRight_cons {rest : List Area} {s : Scan} : LoopRight w o dict (a::rest) s ↔ LineRight w o dict a s ∧
    ∀ seen t, (memLine w o dict a.mapping.line).run s = .returned seen t → LoopRight w o seen rest t := by
  constructor
  · intro right
    refine ⟨right [] a rest rfl dict s rfl,?_⟩
    rintro seen t ran before b after rfl last u reached
    apply right (a::before) b after rfl last u
    rw [List.map_cons,memDict,bind_run,ran]
    exact reached
  · rintro ⟨first,further⟩ before b after same seen t reached
    cases before with
    | nil =>
      cases same
      cases reached
      exact first
    | cons c before =>
      cases same
      rw [List.map_cons,memDict] at reached
      obtain ⟨next,u,ran,behind⟩ := bind_returned reached
      exact further next u ran before b after rfl seen t behind

theorem loopRight_iff (compile : o.Compile w) (dict : List Int) (areas : List Area) (s : Scan) :
    LoopRight w o dict areas s ↔ NamesKept dict s.p.name areas := by
  induction areas generalizing dict s with
  | nil =>
    refine ⟨fun _ => trivial,fun _ before a after same => ?_⟩
    simp at same
  | cons a rest ih =>
    rw [loopRight_cons,NamesKept]
    split
    case isTrue skipped =>
      have ran := memLine_skip (w := w) (o := o) skipped s
      constructor
      · intro right
        exact (ih dict s).mp (right.2 dict s ran)
      · intro kept
        refine ⟨⟨fun u impossible => ?_,?_⟩,?_⟩
        · rw [ran] at impossible
          cases impossible
        · rw [ran]
          exact hands_refl _ s
        · intro seen t same
          rw [ran] at same
          cases same
          exact (ih dict s).mpr kept
    case isFalse fresh =>
      split
      next pathless =>
        obtain ⟨t,ran,handed⟩ := memLine_pathless (w := w) (o := o) fresh pathless s
        refine ⟨fun _ => trivial,fun _ => ⟨⟨fun u impossible => ?_,[],?_,by simp⟩,?_⟩⟩
        · rw [ran] at impossible
          cases impossible
        · rw [ran,List.append_nil]
          exact handed
        · intro seen t impossible
          rw [ran] at impossible
          cases impossible
      next path =>
        rw [line_fresh_iff compile fresh path s]
        refine and_congr_right fun named => ?_
        obtain ⟨readable,right⟩ := (named_iff a s.p (memKey a.mapping)).mpr named
        have ran := memLine_record compile fresh path s readable
        have behind (t : Scan) (name : t.p.name = a.file) := name ▸ ih (memKey a.mapping::dict) t
        constructor
        · exact fun further => (behind _ right.1).mp (further _ _ ran)
        · intro kept seen t same
          rw [ran] at same
          cases same
          exact (behind _ right.1).mpr kept

theorem names_right_iff (x : Process) (areas : List Area) (s : Scan) (compile : o.Compile w) :
    NamesRight w o x areas s ↔ NamesKept [s.p.inode] s.p.name areas := by
  refine Iff.trans ?_ (loopRight_iff compile [s.p.inode] areas (opened s))
  have lines (before : List Area) : (before.map Area.mapping).map Mapping.line = before.map fun b => b.mapping.line :=
    List.map_map
  have line (before : List Area) (a : Area) {seen : List Int} {t : Scan}
      (ran : (memDict w o [s.p.inode] (before.map fun b => b.mapping.line)).run (opened s) = .returned seen t) :
      ((∀ u, (readMaps w o x (before.map Area.mapping ++ [a.mapping])).run s ≠ .stopped .undefined u) ∧
        Hands (Names a) t ((readMaps w o x (before.map Area.mapping ++ [a.mapping])).run s).state) ↔
          LineRight w o seen a t := by
    rw [readMaps_next a.mapping (lines before ▸ ran),LineRight]
    cases (memLine w o seen a.mapping.line).run t <;> simp
  constructor
  · intro right before a after same seen t ran
    refine (line before a ran).mp (right before a after same t ?_)
    rw [readMaps_run,lines,ran]
    rfl
  · intro right before a after same t ok
    obtain ⟨seen,ran⟩ := readMaps_returns ok
    rw [lines] at ran
    exact (line before a ran).mpr (right before a after same seen t ran)

end Loop

def plainArea : Area where
  mapping := shellMapping
  file := "/usr/bin/sh".toList
  deleted := false
  spelt := by decide

theorem plain_named : NamesRight noUsers noFilters idle [plainArea] zeroes := by
  apply (names_right_iff idle [plainArea] zeroes (noFilters_compile noUsers)).mpr
  have named : plainArea.NamedBehind zeroes.p.name := by
    refine ⟨by decide,?_⟩
    rw [if_neg (by decide)]
    exact ⟨fun marked => absurd ((strstr_iff _ _).mpr marked) (by decide),by decide⟩
  rw [NamesKept,if_neg (by decide),if_neg (by decide)]
  exact ⟨named,trivial⟩

def deletedArea : Area where
  mapping := {shellMapping with
    path := "/tmp/x (deleted)".toList
    text := by decide
    apart := by decide}
  file := "/tmp/x".toList
  deleted := true
  spelt := by decide

/-- The row of a deleted file has mem in its FD column. -/
theorem deleted_unseen : ¬ NamesRight noUsers noFilters idle [deletedArea] zeroes := by
  intro right
  obtain ⟨-,hands⟩ := right [] deletedArea [] rfl (opened zeroes) rfl
  have ran : (memLine noUsers noFilters [zeroes.p.inode] deletedArea.mapping.line).run (opened zeroes) = _ :=
    memLine_record (noFilters_compile noUsers) (by decide) (by decide) (opened zeroes)
      ⟨by decide,fun found => absurd found (by decide)⟩
  rw [readMaps_next deletedArea.mapping rfl,ran] at hands
  obtain ⟨new,same,names⟩ := hands
  cases same
  have column := (names _ (List.mem_singleton_self _)).2
  revert column
  decide

end Unixprog.Hw1
