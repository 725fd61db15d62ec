import Unixprog.Hw1.MapLines
import Mathlib.Data.List.Induction

/-! The mapped files that readMem lists: one row for each, if the inode numbers tell
them apart. -/
namespace Unixprog.Hw1
open CStrings Aborts ProcMaps

structure FileId where
  major : Nat
  minor : Nat
  inode : BitVec 64
deriving DecidableEq

def fileOf (m : Mapping) : FileId := ⟨m.major,m.minor,m.inode⟩

def FileId.number (f : FileId) : Int := f.inode.toNat

def wanted (exe f : FileId) : Bool := f.inode ≠ 0 && f ≠ exe

/-- The mapped files but for the executable, in the order of their first lines. -/
def mappedFiles (exe : FileId) (lines : List Mapping) : List FileId :=
  ((lines.map fileOf).filter (wanted exe)).eraseDups

/-- After every line the rows are those of the files mapped so far, one for each. -/
def ListsOnce (w : World) (o : Options) (x : Process) (exe : FileId) (lines : List Mapping) (s : Scan) : Prop :=
  ∀ before after, lines = before ++ after → ∃ new t, (readMaps w o x before).run s = .returned () t ∧
    t.handed = s.handed ++ new ∧ t.rows = s.rows ++ (new.filter (passes w o)).map row ∧
      new.map Info.inode = (mappedFiles exe before).map FileId.number

/-- The first line of a file, `p` being the record before the loop. -/
structure FirstLine (exe : FileId) (p : Info) (before : List Mapping) (m : Mapping) : Prop where
  small : m.inode.toNat < 2^31
  unseeded : (fileOf m).number ≠ p.inode
  alone : ∀ b ∈ before, wanted exe (fileOf b) → b.inode ≠ m.inode
  path : m.gap ≠ 0
  word : (firstWord m.path).length < MAX_NAME_SIZE
  terminated : strstr (chomp (firstWord m.path)) "(deleted)".toList = true →
    (∃ b ∈ before, wanted exe (fileOf b)) ∨ p.name.length < MAX_NAME_SIZE

/-- The number of the executable's line was seen before. -/
def ExeSeen (exe : FileId) (p : Info) (before : List Mapping) (m : Mapping) : Prop :=
  memKey m = 0 ∨ memKey m = p.inode ∨ ∃ b ∈ before, wanted exe (fileOf b) ∧ (fileOf b).number = memKey m

structure ToldApart (exe : FileId) (p : Info) (before : List Mapping) (m : Mapping) : Prop where
  executable : fileOf m = exe → m.inode ≠ 0 → ExeSeen exe p before m
  first : wanted exe (fileOf m) → fileOf m ∉ before.map fileOf → FirstLine exe p before m

section Keys
variable {m : Mapping}

theorem memKey_small (small : m.inode.toNat < 2^31) : memKey m = (fileOf m).number := by
  rw [memKey,FileId.number,fileOf,min_eq_left (by omega),BitVec.toInt_ofInt,Int.bmod_eq_of_le (by omega) (by omega)]

theorem memKey_exact (exact : memKey m = (fileOf m).number) : m.inode.toNat < 2^31 := by
  have bound : memKey m < 2^31 := BitVec.toInt_lt
  rw [exact,FileId.number,fileOf] at bound
  dsimp only at bound
  omega

theorem number_zero (zero : m.inode = 0) : memKey m = 0 := by
  rw [memKey,zero]
  decide

theorem number_nonzero (nonzero : m.inode ≠ 0) : (fileOf m).number ≠ 0 := by
  intro zero
  apply nonzero
  have number : (m.inode.toNat : Int) = 0 := zero
  exact BitVec.eq_of_toNat_eq (by simpa using number)

theorem eraseDups_snoc {α : Type} [DecidableEq α] (known : List α) (a : α) :
    (known ++ [a]).eraseDups = known.eraseDups ++ if a ∈ known then [] else [a] := by
  rw [List.eraseDups_append]
  by_cases old : a ∈ known <;> simp [List.removeAll,old,List.eraseDups_cons]

theorem mappedFiles_snoc (exe : FileId) (before : List Mapping) (m : Mapping) : mappedFiles exe (before ++ [m]) =
    mappedFiles exe before ++ if wanted exe (fileOf m) ∧ fileOf m ∉ before.map fileOf then [fileOf m] else [] := by
  rw [mappedFiles,List.map_append,List.filter_append,List.map_singleton,List.filter_singleton]
  by_cases want : wanted exe (fileOf m) = true
  · have known : fileOf m ∈ (before.map fileOf).filter (wanted exe) ↔ fileOf m ∈ before.map fileOf := by
      rw [List.mem_filter,and_iff_left want]
    rw [want,cond_true,eraseDups_snoc,mappedFiles]
    by_cases old : fileOf m ∈ before.map fileOf
    · rw [if_pos (known.mpr old),if_neg fun fresh => fresh.2 old]
    · rw [if_neg fun member => old (known.mp member),if_pos ⟨rfl,old⟩]
  · have unwanted : wanted exe (fileOf m) = false := by simpa using want
    rw [if_neg fun fresh => want fresh.1,unwanted,cond_false,List.append_nil,List.append_nil]
    rfl

end Keys

/-! The loop. -/

/-- Where every line so far is told apart, from `s` to `t`. -/
structure Listed (w : World) (o : Options) (exe : FileId) (before : List Mapping) (s : Scan) (dict : List Int)
    (t : Scan) : Prop where
  seen : ∀ k, k ∈ dict ↔ k = s.p.inode ∨ ∃ b ∈ before, wanted exe (fileOf b) ∧ (fileOf b).number = k
  small : ∀ b ∈ before, wanted exe (fileOf b) → b.inode.toNat < 2^31
  named : (∃ b ∈ before, wanted exe (fileOf b)) → t.p.name.length < MAX_NAME_SIZE
  kept : (¬ ∃ b ∈ before, wanted exe (fileOf b)) → t.p.name = s.p.name
  rows : ∃ new, t.handed = s.handed ++ new ∧ t.rows = s.rows ++ (new.filter (passes w o)).map row ∧
    new.map Info.inode = (mappedFiles exe before).map FileId.number

section Loop
variable {w : World} {o : Options} {exe : FileId} {before : List Mapping} {m : Mapping} {s t : Scan} {dict : List Int}

theorem wanted_nonzero {f : FileId} (want : wanted exe f = true) : f.inode ≠ 0 ∧ f ≠ exe := by
  simpa [wanted] using want

/-- A line that is skipped and opens no wanted file. -/
theorem Listed.skip (listed : Listed w o exe before s dict t)
    (old : wanted exe (fileOf m) → fileOf m ∈ before.map fileOf) : Listed w o exe (before ++ [m]) s dict t := by
  have same (P : Mapping → Prop) (of : ∀ b, fileOf b = fileOf m → P m → P b) :
      (∃ b ∈ before ++ [m], wanted exe (fileOf b) ∧ P b) ↔ ∃ b ∈ before, wanted exe (fileOf b) ∧ P b := by
    constructor
    · rintro ⟨b,member,want,holds⟩
      rcases List.mem_append.mp member with inside | last
      · exact ⟨b,inside,want,holds⟩
      · rw [List.mem_singleton.mp last] at want holds
        obtain ⟨c,inside,file⟩ := List.mem_map.mp (old want)
        exact ⟨c,inside,file ▸ want,of c file holds⟩
    · rintro ⟨b,member,holds⟩
      exact ⟨b,List.mem_append_left _ member,holds⟩
  have any : (∃ b ∈ before ++ [m], wanted exe (fileOf b)) ↔ ∃ b ∈ before, wanted exe (fileOf b) := by
    simpa using same (fun _ => True) fun _ _ _ => trivial
  refine ⟨fun k => ?_,fun b member want => ?_,fun found => listed.named (any.mp found),fun none => ?_,?_⟩
  · rw [listed.seen k,same (fun b => (fileOf b).number = k) fun b file holds => file ▸ holds]
  · rcases List.mem_append.mp member with inside | last
    · exact listed.small b inside want
    · rw [List.mem_singleton.mp last] at want ⊢
      obtain ⟨c,inside,file⟩ := List.mem_map.mp (old want)
      have inode : c.inode = m.inode := congrArg FileId.inode file
      exact inode ▸ listed.small c inside (file ▸ want)
  · exact listed.kept fun found => none (any.mpr found)
  · obtain ⟨new,handed,rows,inodes⟩ := listed.rows
    refine ⟨new,handed,rows,?_⟩
    rw [mappedFiles_snoc,if_neg fun fresh => fresh.2 (old fresh.1),List.append_nil]
    exact inodes

/-- The first line of a wanted file, whose row is printed. -/
theorem Listed.show {u : Scan} {p : Info} (listed : Listed w o exe before s dict t) (want : wanted exe (fileOf m))
    (new : fileOf m ∉ before.map fileOf) (small : m.inode.toNat < 2^31) (inode : p.inode = memKey m)
    (fits : u.p.name.length < MAX_NAME_SIZE) (handed : u.handed = t.handed ++ [p])
    (rows : u.rows = t.rows ++ if passes w o p then [row p] else []) :
    Listed w o exe (before ++ [m]) s (memKey m::dict) u := by
  have last : m ∈ before ++ [m] := List.mem_append_right _ (List.mem_singleton_self m)
  refine ⟨fun k => ?_,fun b member wantB => ?_,fun _ => fits,fun none => absurd ⟨m,last,want⟩ none,?_⟩
  · rw [List.mem_cons,listed.seen k,memKey_small small]
    constructor
    · rintro (rfl | seeded | ⟨b,member,wantB,number⟩)
      · exact .inr ⟨m,last,want,rfl⟩
      · exact .inl seeded
      · exact .inr ⟨b,List.mem_append_left _ member,wantB,number⟩
    · rintro (seeded | ⟨b,member,wantB,number⟩)
      · exact .inr (.inl seeded)
      · rcases List.mem_append.mp member with inside | here
        · exact .inr (.inr ⟨b,inside,wantB,number⟩)
        · rw [List.mem_singleton.mp here] at number
          exact .inl number.symm
  · rcases List.mem_append.mp member with inside | here
    · exact listed.small b inside wantB
    · rw [List.mem_singleton.mp here]
      exact small
  · obtain ⟨front,before,printed,inodes⟩ := listed.rows
    refine ⟨front ++ [p],?_,?_,?_⟩
    · rw [handed,before,List.append_assoc]
    · rw [rows,printed,List.filter_append,List.map_append,List.append_assoc]
      by_cases passed : passes w o p = true <;> simp [passed]
    · rw [mappedFiles_snoc,if_pos ⟨want,new⟩,List.map_append,List.map_append,inodes,List.map_singleton,
        List.map_singleton,inode,memKey_small small]

theorem listed_step (compile : o.Compile w) (listed : Listed w o exe before s dict t)
    (told : ToldApart exe s.p before m) : ∃ seen u, (memLine w o dict m.line).run t = .returned seen u ∧
      Listed w o exe (before ++ [m]) s seen u := by
  by_cases want : wanted exe (fileOf m) = true
  · by_cases old : fileOf m ∈ before.map fileOf
    · -- A file that was listed: its number was taken in then.
      obtain ⟨b,inside,file⟩ := List.mem_map.mp old
      have inode : b.inode = m.inode := congrArg FileId.inode file
      have small : m.inode.toNat < 2^31 := inode ▸ listed.small b inside (file ▸ want)
      have known : memKey m ∈ dict :=
        (listed.seen _).mpr (.inr ⟨b,inside,file ▸ want,by rw [file,memKey_small small]⟩)
      exact ⟨dict,t,memLine_skip (.inr known) t,listed.skip fun _ => old⟩
    · obtain ⟨small,unseeded,alone,path,word,terminated⟩ := told.first want old
      have fresh : ¬ (memKey m = 0 ∨ memKey m ∈ dict) := by
        rw [memKey_small small,listed.seen]
        rintro (zero | seeded | ⟨b,member,wantB,number⟩)
        · exact number_nonzero (wanted_nonzero want).1 zero
        · exact unseeded seeded
        · refine alone b member wantB (BitVec.eq_of_toNat_eq ?_)
          simpa [FileId.number,fileOf] using number
      have readable : Readable t.p.name (firstWord m.path) := by
        refine ⟨word,fun marked => ?_⟩
        by_cases found : ∃ b ∈ before, wanted exe (fileOf b)
        · exact listed.named found
        · rw [listed.kept found]
          exact (terminated marked).resolve_left found
      refine ⟨_,_,memLine_record compile fresh path t readable,?_⟩
      exact listed.show want old small (memRecord_inode _ _ _) (memRecord_fits word) rfl rfl
  · have skipped : memKey m = 0 ∨ memKey m ∈ dict := by
      by_cases zero : m.inode = 0
      · exact .inl (number_zero zero)
      · have same : fileOf m = exe := by
          by_contra other
          have nonzero : (fileOf m).inode ≠ 0 := zero
          exact want (by simpa [wanted,other] using nonzero)
        rcases told.executable same zero with key | seeded | seen
        · exact .inl key
        · exact .inr ((listed.seen _).mpr (.inl seeded))
        · exact .inr ((listed.seen _).mpr (.inr seen))
    exact ⟨dict,t,memLine_skip skipped t,listed.skip fun wants => absurd wants want⟩

/-- Rows that are right after a line show that its file was told apart. -/
theorem told_of_rows {u : Scan} {seen : List Int} {new : List Info} (compile : o.Compile w)
    (listed : Listed w o exe before s dict t) (ran : (memLine w o dict m.line).run t = .returned seen u)
    (handed : u.handed = s.handed ++ new)
    (inodes : new.map Info.inode = (mappedFiles exe (before ++ [m])).map FileId.number) :
    ToldApart exe s.p before m := by
  obtain ⟨front,earlier,-,numbers⟩ := listed.rows
  rw [mappedFiles_snoc,List.map_append,← numbers] at inodes
  by_cases skipped : memKey m = 0 ∨ memKey m ∈ dict
  · rw [memLine_skip skipped] at ran
    cases ran
    have same := List.append_cancel_left (earlier.symm.trans handed)
    rw [← same] at inodes
    constructor
    · intro _ _
      rcases skipped with zero | known
      · exact .inl zero
      · exact .inr ((listed.seen _).mp known)
    · intro want fresh
      rw [if_pos ⟨want,fresh⟩] at inodes
      simp at inodes
  by_cases path : m.gap = 0
  · obtain ⟨v,stopped,-⟩ := memLine_pathless (w := w) (o := o) skipped path t
    rw [stopped] at ran
    cases ran
  by_cases readable : Readable t.p.name (firstWord m.path)
  case neg =>
    obtain ⟨v,stopped⟩ := memLine_overruns (w := w) (o := o) skipped path t readable
    rw [stopped] at ran
    cases ran
  rw [memLine_record compile skipped path t readable] at ran
  cases ran
  have same : front ++ [memRecord t.p (memKey m) (firstWord m.path)] = new := by
    refine List.append_cancel_left (?_ : s.handed ++ _ = s.handed ++ new)
    rw [← List.append_assoc,← earlier]
    exact handed
  rw [← same,List.map_append,List.map_singleton,memRecord_inode] at inodes
  have last := List.append_cancel_left inodes
  split at last
  case isFalse => cases last
  case isTrue opens =>
    have exact : memKey m = (fileOf m).number := by simpa using last
    refine ⟨fun executable _ => absurd executable (wanted_nonzero opens.1).2,fun _ _ => ?_⟩
    obtain ⟨-,unknown⟩ := not_or.mp skipped
    rw [listed.seen,exact,not_or] at unknown
    refine ⟨memKey_exact exact,unknown.1,fun b member want inode => ?_,path,readable.1,fun marked => ?_⟩
    · have number : (fileOf b).number = (fileOf m).number := congrArg (fun i : BitVec 64 => (i.toNat : Int)) inode
      exact unknown.2 ⟨b,member,want,number⟩
    · by_cases found : ∃ b ∈ before, wanted exe (fileOf b)
      · exact .inl found
      · exact .inr (listed.kept found ▸ readable.2 marked)

theorem listed_nil (s : Scan) : Listed w o exe [] s [s.p.inode] (opened s) := by
  refine ⟨fun k => by simp,by simp,by simp,fun _ => rfl,[],?_,?_,rfl⟩
  · exact (List.append_nil _).symm
  · exact (List.append_nil _).symm

theorem listed_run (compile : o.Compile w) (lines : List Mapping)
    (told : ∀ before m after, lines = before ++ m::after → ToldApart exe s.p before m) : ∃ dict t,
      (memDict w o [s.p.inode] (lines.map Mapping.line)).run (opened s) = .returned dict t ∧
        Listed w o exe lines s dict t := by
  induction lines using List.reverseRecOn with
  | nil => exact ⟨_,_,rfl,listed_nil s⟩
  | append_singleton before m ih =>
    obtain ⟨dict,t,ran,listed⟩ := ih fun front n after same => told front n (after ++ [m]) (by simp [same])
    obtain ⟨seen,u,next,further⟩ := listed_step compile listed (told before m [] rfl)
    exact ⟨seen,u,(memDict_snoc m ran).trans next,further⟩

theorem told_run {x : Process} (compile : o.Compile w) (lines : List Mapping) (right : ListsOnce w o x exe lines s)
    (before after : List Mapping) (split : lines = before ++ after) : ∃ dict t,
      (memDict w o [s.p.inode] (before.map Mapping.line)).run (opened s) = .returned dict t ∧
        Listed w o exe before s dict t ∧ ∀ m rest, after = m::rest → ToldApart exe s.p before m := by
  have next (front : List Mapping) (m : Mapping) (rest : List Mapping) (cut : lines = front ++ m::rest) (dict : List Int)
      (t : Scan) (ran : (memDict w o [s.p.inode] (front.map Mapping.line)).run (opened s) = .returned dict t)
      (listed : Listed w o exe front s dict t) : ToldApart exe s.p front m := by
    obtain ⟨new,u,ok,handed,-,inodes⟩ := right (front ++ [m]) rest (by simp [cut])
    obtain ⟨seen,reached⟩ := readMaps_returns ok
    rw [memDict_snoc m ran] at reached
    exact told_of_rows compile listed reached handed inodes
  have all : ∃ dict t, (memDict w o [s.p.inode] (before.map Mapping.line)).run (opened s) = .returned dict t ∧
      Listed w o exe before s dict t := by
    induction before using List.reverseRecOn generalizing after with
    | nil => exact ⟨_,_,rfl,listed_nil s⟩
    | append_singleton front m ih =>
      obtain ⟨dict,t,ran,listed⟩ := ih (m::after) (by simp [split])
      have told := next front m after (by simp [split]) dict t ran listed
      obtain ⟨seen,u,ok,further⟩ := listed_step compile listed told
      exact ⟨seen,u,(memDict_snoc m ran).trans ok,further⟩
  obtain ⟨dict,t,ran,listed⟩ := all
  exact ⟨dict,t,ran,listed,fun m rest cut => next before m rest (cut ▸ split) dict t ran listed⟩

theorem readMem_lists_iff (x : Process) (exe : FileId) (lines : List Mapping) (s : Scan) (compile : o.Compile w) :
    ListsOnce w o x exe lines s ↔ ∀ before m after, lines = before ++ m::after → ToldApart exe s.p before m := by
  constructor
  · intro right before m after split
    obtain ⟨_,_,_,_,told⟩ := told_run compile lines right before (m::after) split
    exact told m after rfl
  · intro told before after split
    obtain ⟨dict,t,ran,listed⟩ := listed_run compile before fun front m rest cut =>
      told front m (rest ++ after) (by simp [split,cut])
    obtain ⟨new,handed,rows,inodes⟩ := listed.rows
    refine ⟨new,t,?_,handed,rows,inodes⟩
    rw [readMaps_run,ran]
    rfl

end Loop

theorem shell_listed : ListsOnce noUsers noFilters idle ⟨8,1,5⟩ [shellMapping] zeroes := by
  apply (readMem_lists_iff idle ⟨8,1,5⟩ [shellMapping] zeroes (noFilters_compile noUsers)).mpr
  intro before m after split
  cases before with
  | cons b before => simp at split
  | nil =>
    cases split
    refine ⟨fun same => absurd same (by decide),fun _ _ => ?_⟩
    exact ⟨by decide,by decide,by simp,by decide,by decide,fun marked => absurd marked (by decide)⟩

/-- 2^32 is the number of no file, and zero as an int. -/
def wideMapping : Mapping := {shellMapping with inode := 0x100000000}

theorem wide_unlisted : ¬ ListsOnce noUsers noFilters idle ⟨8,1,5⟩ [wideMapping] zeroes := by
  intro right
  obtain ⟨new,t,ok,handed,-,inodes⟩ := right [wideMapping] [] rfl
  have skipped : (readMaps noUsers noFilters idle [wideMapping]).run zeroes = .returned () (opened zeroes) := by
    have zero : memKey wideMapping = 0 := by decide
    have ran : (memLine noUsers noFilters [0] wideMapping.line).run (opened zeroes) = .returned [0] (opened zeroes) :=
      memLine_skip (.inl zero) _
    have begun : (memDict noUsers noFilters [0] (([] : List Mapping).map Mapping.line)).run (opened zeroes) =
      .returned [0] (opened zeroes) := rfl
    apply (readMaps_next (x := idle) (s := zeroes) wideMapping begun).trans
    rw [ran]
    rfl
  rw [skipped] at ok
  cases ok
  have none : new = [] := handed.symm
  have one : mappedFiles ⟨8,1,5⟩ [wideMapping] = [fileOf wideMapping] := by decide
  rw [none,one] at inodes
  cases inodes

end Unixprog.Hw1
