import Unixprog.Library.Fills
import Mathlib.Data.Set.Insert

/-! Signal sets. A set is one word in memory. sigfillset writes through a pointer that
it never sets; what that pointer holds is given with the call. -/
namespace Unixprog.Libmini
open Words

def NSIG : Int := 64
def EINVAL : Int := 22

def sizeofSigset : Nat := 8

/-- `sizeof(set)` where `set` is a pointer. -/
def sizeofPointer : Nat := 8

structure Space where
  mem : Memory
  errno : Int

def bitOf (sig : Int) : Nat := (sig-1).toNat

def sigmask (sig : Int) : Word := 1#64 <<< bitOf sig

def bzero (s : Word) (size : Nat) (m : Memory) : Option Memory := fill 0x00#8 size s m

/-- Result and state after; `none` when the process dies of a fault. -/
def sigemptyset (set : Word) (s : Space) : Option (Int × Space) :=
  if set = 0 then some (-1,{s with errno := 1})
  else (bzero set sizeofSigset s.mem).map fun mem => (0,⟨mem,0⟩)

/-- The argument is not used; `ptr` is what the local of that name holds. -/
def sigfillset (ptr : Word) (s : Space) : Option (Int × Space) :=
  (fill 0xff#8 sizeofPointer ptr s.mem).map fun mem => (0,⟨mem,0⟩)

def Admissible (signum : Int) : Prop := 0 < signum ∧ signum < NSIG

instance (signum : Int) : Decidable (Admissible signum) := inferInstanceAs (Decidable (_ ∧ _))

def changeMember (change : Word → Word → Word) (set : Word) (signum : Int) (s : Space) : Option (Int × Space) :=
  if signum ≤ 0 ∨ NSIG ≤ signum then some (-1,{s with errno := EINVAL})
  else do
    let word ← fetch s.mem set
    let mem ← store s.mem set (change word (sigmask signum))
    some (0,⟨mem,0⟩)

def sigaddset : Word → Int → Space → Option (Int × Space) := changeMember fun word mask => word ||| mask

def sigdelset : Word → Int → Space → Option (Int × Space) := changeMember fun word mask => word &&& ~~~mask

def sigismember (set : Word) (signum : Int) (s : Space) : Option (Int × Space) :=
  if signum ≤ 0 ∨ NSIG ≤ signum then some (-1,{s with errno := EINVAL})
  else do
    let word ← fetch s.mem set
    some (if word &&& sigmask signum ≠ 0 then 1 else 0,{s with errno := 0})

/-! Sequences of calls on one set. -/

inductive Call
  | sigemptyset
  | sigfillset (ptr : Word)
  | sigaddset (signum : Int)
  | sigdelset (signum : Int)

def Call.perform (set : Word) : Call → Space → Option (Int × Space)
  | .sigemptyset => Libmini.sigemptyset set
  | .sigfillset ptr => Libmini.sigfillset ptr
  | .sigaddset signum => Libmini.sigaddset set signum
  | .sigdelset signum => Libmini.sigdelset set signum

def performAll (set : Word) : List Call → Space → Option Space
  | [],s => some s
  | call::calls,s => (call.perform set s).bind fun result => performAll set calls result.2

/-- The set that the calls build, once one of them has emptied or filled it. -/
def Call.build : Call → Option (Set Int) → Option (Set Int)
  | .sigemptyset,_ => some ∅
  | .sigfillset _,_ => some Set.univ
  | .sigaddset signum,members => if Admissible signum then members.map fun A => insert signum A else members
  | .sigdelset signum,members => if Admissible signum then members.map fun A => A \ {signum} else members

def built (calls : List Call) : Option (Set Int) := calls.foldl (fun members call => call.build members) none

def Call.Valid : Call → Prop
  | .sigaddset signum => Admissible signum
  | .sigdelset signum => Admissible signum
  | _ => True

structure Answers (set : Word) (call : Call) (s : Space) : Prop where
  valid : call.Valid → ∃ mem, call.perform set s = some (0,⟨mem,0⟩)
  invalid : ¬ call.Valid → call.perform set s = some (-1,{s with errno := EINVAL})

structure Tells (set : Word) (s : Space) (members : Set Int) : Prop where
  member : ∀ signum, Admissible signum → signum ∈ members → sigismember set signum s = some (1,{s with errno := 0})
  other : ∀ signum, Admissible signum → signum ∉ members → sigismember set signum s = some (0,{s with errno := 0})
  invalid : ∀ signum, ¬ Admissible signum → sigismember set signum s = some (-1,{s with errno := EINVAL})

structure Faithful (set : Word) (s : Space) (calls : List Call) : Prop where
  answers : ∀ before call, before ++ [call] <+: calls →
    ∃ t, performAll set before s = some t ∧ Answers set call t
  members : ∀ before, before <+: calls → ∀ t, performAll set before s = some t →
    ∀ A, built before = some A → Tells set t A

/-- The eight bytes at `ptr` can be written, and each signal is a member or has its byte among them. -/
def Fills (set ptr : Word) (m : Memory) : Prop :=
  MappedFor m ptr sizeofPointer ∧ ∀ signum, Admissible signum →
    BitAt m set (bitOf signum) ∨ offset ptr (set+BitVec.ofNat 64 (bitOf signum/8)) < sizeofPointer

/-! Bits of the word. -/

section Bits
variable {set : Word} {signum other : Int}

theorem not_admissible_iff : ¬ Admissible signum ↔ signum ≤ 0 ∨ NSIG ≤ signum := by
  rw [Admissible,not_and_or,not_lt,not_lt]

theorem admissible_bit (admissible : Admissible signum) : bitOf signum < 64 := by
  obtain ⟨positive,small⟩ := admissible
  simp only [NSIG,bitOf] at small ⊢
  omega

theorem bit_injective (one : Admissible signum) (two : Admissible other) :
    bitOf signum = bitOf other ↔ signum = other := by
  obtain ⟨positive,_⟩ := one
  obtain ⟨positive',_⟩ := two
  simp only [bitOf]
  omega

theorem sigmask_bit (admissible : Admissible signum) (k : Nat) :
    (sigmask signum).getLsbD k = decide (k = bitOf signum) := by
  have small := admissible_bit admissible
  rw [sigmask,BitVec.getLsbD_shiftLeft,BitVec.getLsbD_one,Bool.eq_iff_iff]
  simp only [Bool.and_eq_true,Bool.not_eq_true',decide_eq_true_eq,decide_eq_false_iff_not]
  omega

theorem and_sigmask (admissible : Admissible signum) (word : Word) :
    word &&& sigmask signum ≠ 0 ↔ word.getLsbD (bitOf signum) = true := by
  constructor
  · intro some
    by_contra clear
    refine some (BitVec.eq_of_getLsbD_eq fun k _ => ?_)
    rw [BitVec.getLsbD_and,sigmask_bit admissible]
    by_cases same : k = bitOf signum
    · subst k
      rw [Bool.eq_false_of_not_eq_true clear,Bool.false_and,BitVec.ofNat_eq_ofNat,BitVec.getLsbD_zero]
    · simp [same]
  · intro found zero
    have bit := congrArg (fun w : Word => w.getLsbD (bitOf signum)) zero
    simp [sigmask_bit admissible,found] at bit

def Represents (set : Word) (m : Memory) (members : Set Int) : Prop :=
  ∀ signum, Admissible signum → (BitAt m set (bitOf signum) ↔ signum ∈ members)

theorem sigismember_bit {s : Space} (mapped : Mapped s.mem set) (admissible : Admissible signum) :
    ∃ answer, sigismember set signum s = some (answer,{s with errno := 0}) ∧
      (answer = 1 ∧ BitAt s.mem set (bitOf signum) ∨ answer = 0 ∧ ¬ BitAt s.mem set (bitOf signum)) := by
  obtain ⟨word,read,_⟩ := fetch_mapped s.mem set mapped
  have valid : ¬ (signum ≤ 0 ∨ NSIG ≤ signum) := by rwa [← not_admissible_iff,not_not]
  rw [bitAt_fetch read (admissible_bit admissible),← and_sigmask admissible]
  simp only [sigismember,if_neg valid,read]
  refine ⟨_,rfl,?_⟩
  split
  next found => exact .inl ⟨rfl,found⟩
  next clear => exact .inr ⟨rfl,clear⟩

theorem tells_iff {s : Space} (mapped : Mapped s.mem set) (members : Set Int) :
    Tells set s members ↔ Represents set s.mem members := by
  constructor
  · intro tells signum admissible
    obtain ⟨answer,asked,⟨rfl,found⟩ | ⟨rfl,clear⟩⟩ := sigismember_bit mapped admissible
    · refine ⟨fun _ => ?_,fun _ => found⟩
      by_contra outside
      rw [tells.other signum admissible outside] at asked
      cases asked
    · refine ⟨fun found => absurd found clear,fun inside => ?_⟩
      rw [tells.member signum admissible inside] at asked
      cases asked
  · intro represents
    refine ⟨?_,?_,?_⟩
    · intro signum admissible inside
      obtain ⟨answer,asked,⟨rfl,found⟩ | ⟨rfl,clear⟩⟩ := sigismember_bit mapped admissible
      · exact asked
      · exact absurd ((represents signum admissible).mpr inside) clear
    · intro signum admissible outside
      obtain ⟨answer,asked,⟨rfl,found⟩ | ⟨rfl,clear⟩⟩ := sigismember_bit mapped admissible
      · exact absurd ((represents signum admissible).mp found) outside
      · exact asked
    · intro signum barred
      exact if_pos (not_admissible_iff.mp barred)

end Bits

/-! What each call does to the members. -/

section Steps
variable {set : Word} {s : Space}

def Builds (set : Word) (s : Space) (call : Call) : Prop :=
  ∃ mem, call.perform set s = some (0,⟨mem,0⟩) ∧ Mapped mem set ∧
    ∀ members A, (∀ B, members = some B → Represents set s.mem B) → call.build members = some A → Represents set mem A

theorem sigemptyset_builds (given : set ≠ 0) (mapped : Mapped s.mem set) : Builds set s .sigemptyset := by
  refine ⟨filled 0x00#8 sizeofSigset set s.mem,?_,filled_mapped _ _ _ _ _ mapped,?_⟩
  · simp only [Call.perform,sigemptyset,if_neg given,bzero]
    rw [(fill_eq 0x00#8 sizeofSigset (by decide) set s.mem).1 mapped]
    rfl
  · intro members A _ empties signum admissible
    cases empties
    have small := admissible_bit admissible
    rw [bitAt_filled,offset_add _ _ (by omega),if_pos (by rw [sizeofSigset]; omega)]
    simp

theorem sigfillset_builds {ptr : Word} (mapped : Mapped s.mem set) (fills : Fills set ptr s.mem) :
    Builds set s (.sigfillset ptr) := by
  refine ⟨filled 0xff#8 sizeofPointer ptr s.mem,?_,filled_mapped _ _ _ _ _ mapped,?_⟩
  · simp only [Call.perform,sigfillset]
    rw [(fill_eq 0xff#8 sizeofPointer (by decide) ptr s.mem).1 fills.1]
    rfl
  · intro members A _ whole signum admissible
    cases whole
    have small : bitOf signum%8 < 8 := Nat.mod_lt _ (by omega)
    have full : (0xff#8).getLsbD (bitOf signum%8) = true := by
      rw [show (0xff#8 : Byte) = BitVec.allOnes 8 from rfl,BitVec.getLsbD_allOnes]
      exact decide_eq_true small
    rw [bitAt_filled]
    simp only [Set.mem_univ,iff_true]
    split
    next near => exact full
    next far => exact (fills.2 signum admissible).resolve_right far

theorem changeMember_valid (change : Word → Word → Word) {signum : Int} (mapped : Mapped s.mem set)
    (admissible : Admissible signum) : ∃ word, fetch s.mem set = some word ∧
      changeMember change set signum s =
        some (0,⟨overwrite s.mem set fun i => some (byteAt (change word (sigmask signum)) i),0⟩) := by
  obtain ⟨word,read,_⟩ := fetch_mapped s.mem set mapped
  have valid : ¬ (signum ≤ 0 ∨ NSIG ≤ signum) := by rwa [← not_admissible_iff,not_not]
  refine ⟨word,read,?_⟩
  simp only [changeMember,if_neg valid,read,store_mapped _ _ _ mapped]
  rfl

theorem sigaddset_builds {signum : Int} (mapped : Mapped s.mem set) (admissible : Admissible signum) :
    Builds set s (.sigaddset signum) := by
  obtain ⟨word,read,added⟩ := changeMember_valid (fun word mask => word ||| mask) mapped admissible
  refine ⟨_,added,(overwrite_mapped s.mem set set _ mapped).mpr mapped,?_⟩
  intro members A represents builds other also
  simp only [Call.build,if_pos admissible,Option.map_eq_some_iff] at builds
  obtain ⟨B,rfl,rfl⟩ := builds
  have before := represents B rfl other also
  rw [bitAt_fetch read (admissible_bit also)] at before
  rw [bitAt_store _ _ _ (admissible_bit also),BitVec.getLsbD_or,Bool.or_eq_true,before,sigmask_bit admissible,
    decide_eq_true_eq,bit_injective also admissible,Set.mem_insert_iff]
  exact or_comm

theorem sigdelset_builds {signum : Int} (mapped : Mapped s.mem set) (admissible : Admissible signum) :
    Builds set s (.sigdelset signum) := by
  obtain ⟨word,read,deleted⟩ := changeMember_valid (fun word mask => word &&& ~~~mask) mapped admissible
  refine ⟨_,deleted,(overwrite_mapped s.mem set set _ mapped).mpr mapped,?_⟩
  intro members A represents builds other also
  simp only [Call.build,if_pos admissible,Option.map_eq_some_iff] at builds
  obtain ⟨B,rfl,rfl⟩ := builds
  have before := represents B rfl other also
  rw [bitAt_fetch read (admissible_bit also)] at before
  rw [bitAt_store _ _ _ (admissible_bit also),BitVec.getLsbD_and,Bool.and_eq_true,before,BitVec.getLsbD_not,
    sigmask_bit admissible]
  simp [admissible_bit also,bit_injective also admissible]

theorem call_builds (given : set ≠ 0) (mapped : Mapped s.mem set) (call : Call) (valid : call.Valid)
    (fills : ∀ ptr, call = .sigfillset ptr → Fills set ptr s.mem) : Builds set s call := by
  cases call with
  | sigemptyset => exact sigemptyset_builds given mapped
  | sigfillset ptr => exact sigfillset_builds mapped (fills ptr rfl)
  | sigaddset signum => exact sigaddset_builds mapped valid
  | sigdelset signum => exact sigdelset_builds mapped valid

theorem call_invalid (set : Word) (s : Space) (call : Call) (invalid : ¬ call.Valid) :
    call.perform set s = some (-1,{s with errno := EINVAL}) ∧ ∀ members, call.build members = members := by
  cases call with
  | sigemptyset => exact absurd trivial invalid
  | sigfillset ptr => exact absurd trivial invalid
  | sigaddset signum => exact ⟨if_pos (not_admissible_iff.mp invalid),fun _ => if_neg invalid⟩
  | sigdelset signum => exact ⟨if_pos (not_admissible_iff.mp invalid),fun _ => if_neg invalid⟩

end Steps

/-! Whole sequences. -/

section Runs
variable {set : Word} {s : Space}

theorem performAll_snoc (calls : List Call) (call : Call) (s : Space) :
    performAll set (calls ++ [call]) s =
      (performAll set calls s).bind fun t => (call.perform set t).map Prod.snd := by
  induction calls generalizing s with
  | nil =>
    simp only [List.nil_append,performAll,Option.bind_some]
    cases call.perform set s <;> rfl
  | cons first calls ih =>
    simp only [List.cons_append,performAll,ih,Option.bind_assoc]

theorem built_snoc (calls : List Call) (call : Call) : built (calls ++ [call]) = call.build (built calls) := by
  rw [built,List.foldl_append]
  rfl

theorem changeMember_mapped (change : Word → Word → Word) (signum : Int) (mapped : Mapped s.mem set) {r : Int × Space}
    (done : changeMember change set signum s = some r) : Mapped r.2.mem set := by
  unfold changeMember at done
  split at done
  next invalid =>
    cases done
    exact mapped
  next valid =>
    obtain ⟨word,read,_⟩ := fetch_mapped s.mem set mapped
    simp only [read,Option.bind_eq_bind,Option.bind_some,store_mapped _ _ _ mapped,Option.some.injEq] at done
    subst done
    exact (overwrite_mapped s.mem set set _ mapped).mpr mapped

theorem fill_mapped {byte : Byte} {size : Nat} (small : size ≤ 2^64) {ptr : Word} {m mem : Memory}
    (mapped : Mapped m set) (done : fill byte size ptr m = some mem) : Mapped mem set := by
  by_cases room : MappedFor m ptr size
  · rw [(fill_eq byte size small ptr m).1 room] at done
    cases done
    exact filled_mapped _ _ _ _ _ mapped
  · rw [(fill_eq byte size small ptr m).2 room] at done
    cases done

theorem call_mapped (call : Call) (mapped : Mapped s.mem set) {r : Int × Space} (done : call.perform set s = some r) :
    Mapped r.2.mem set := by
  cases call with
  | sigemptyset =>
    simp only [Call.perform,sigemptyset] at done
    split at done
    next null =>
      cases done
      exact mapped
    next given =>
      obtain ⟨mem,written,rfl⟩ := Option.map_eq_some_iff.mp done
      exact fill_mapped (by decide) mapped written
  | sigfillset ptr =>
    obtain ⟨mem,written,rfl⟩ := Option.map_eq_some_iff.mp done
    exact fill_mapped (by decide) mapped written
  | sigaddset signum => exact changeMember_mapped (fun word mask => word ||| mask) signum mapped done
  | sigdelset signum => exact changeMember_mapped (fun word mask => word &&& ~~~mask) signum mapped done

theorem performAll_mapped (calls : List Call) (mapped : Mapped s.mem set) {t : Space}
    (done : performAll set calls s = some t) : Mapped t.mem set := by
  induction calls generalizing s with
  | nil =>
    cases done
    exact mapped
  | cons call calls ih =>
    obtain ⟨r,first,rest⟩ := Option.bind_eq_some_iff.mp done
    exact ih (call_mapped call mapped first) rest

def FillsAll (set : Word) (s : Space) (calls : List Call) : Prop :=
  ∀ before ptr, before ++ [.sigfillset ptr] <+: calls → ∀ t, performAll set before s = some t → Fills set ptr t.mem

theorem prefix_represents (given : set ≠ 0) (mapped : Mapped s.mem set) {calls : List Call}
    (fills : FillsAll set s calls) (before : List Call) (part : before <+: calls) :
    ∃ t, performAll set before s = some t ∧ Mapped t.mem set ∧
      ∀ A, built before = some A → Represents set t.mem A := by
  induction before using List.reverseRecOn with
  | nil => exact ⟨s,rfl,mapped,fun A impossible => by cases impossible⟩
  | append_singleton before call ih =>
    obtain ⟨t,begun,present,represents⟩ := ih ((List.prefix_append _ _).trans part)
    rw [performAll_snoc,begun,Option.bind_some,built_snoc]
    by_cases valid : call.Valid
    · have filling (ptr : Word) (same : call = .sigfillset ptr) : Fills set ptr t.mem :=
        fills before ptr (same ▸ part) t begun
      obtain ⟨mem,done,kept,step⟩ := call_builds given present call valid filling
      rw [done]
      exact ⟨_,rfl,kept,fun A => step (built before) A represents⟩
    · obtain ⟨done,same⟩ := call_invalid set t call valid
      rw [done,same]
      exact ⟨_,rfl,present,represents⟩

/-- The calls work on sets exactly if every sigfillset fills. -/
theorem faithful_iff (set : Word) (s : Space) (given : set ≠ 0) (mapped : Mapped s.mem set) (calls : List Call) :
    Faithful set s calls ↔ FillsAll set s calls := by
  constructor
  · intro faithful before ptr part t begun
    obtain ⟨t',begun',answers⟩ := faithful.answers before _ part
    rw [begun] at begun'
    cases begun'
    have present := performAll_mapped before mapped begun
    obtain ⟨mem,done⟩ := answers.valid trivial
    have room : MappedFor t.mem ptr sizeofPointer := by
      by_contra fault
      rw [Call.perform,sigfillset,(fill_eq _ _ (by decide) ptr t.mem).2 fault] at done
      cases done
    refine ⟨room,fun signum admissible => ?_⟩
    -- After the call every signal has to be told, so its byte was written or it was there.
    rw [Call.perform,sigfillset,(fill_eq _ _ (by decide) ptr t.mem).1 room] at done
    have after : performAll set (before ++ [.sigfillset ptr]) s = some ⟨mem,0⟩ := by
      rw [performAll_snoc,begun,Option.bind_some,Call.perform,sigfillset,(fill_eq _ _ (by decide) ptr t.mem).1 room,done]
      rfl
    obtain rfl : filled 0xff#8 sizeofPointer ptr t.mem = mem := by
      simpa using done
    have tells := faithful.members _ part _ after Set.univ (built_snoc before _)
    have told := ((tells_iff (filled_mapped _ _ _ _ _ present) _).mp tells signum admissible).mpr trivial
    rw [bitAt_filled] at told
    split at told
    next near => exact .inr near
    next far => exact .inl told
  · intro fills
    refine ⟨?_,?_⟩
    · intro before call part
      obtain ⟨t,begun,present,_⟩ := prefix_represents given mapped fills before ((List.prefix_append _ _).trans part)
      refine ⟨t,begun,?_,fun invalid => (call_invalid set t call invalid).1⟩
      intro valid
      obtain ⟨mem,done,_⟩ := call_builds given present call valid fun ptr same => fills before ptr (same ▸ part) t begun
      exact ⟨mem,done⟩
    · intro before part t begun A builds
      obtain ⟨t',begun',present,represents⟩ := prefix_represents given mapped fills before part
      rw [begun] at begun'
      cases begun'
      exact (tells_iff present A).mpr (represents A builds)

end Runs

theorem fills_self {set : Word} {m : Memory} (mapped : Mapped m set) : Fills set set m := by
  refine ⟨mapped,fun signum admissible => .inr ?_⟩
  have small := admissible_bit admissible
  rw [offset_add _ _ (by omega),sizeofPointer]
  omega

def sampleSpace : Space := ⟨fun x => if 0x1000 ≤ x ∧ x < 0x2000 then some 0x00#8 else none,0⟩

theorem sample_mapped : Mapped sampleSpace.mem 0x1000 := by decide

theorem faithful_iff_sample : Faithful 0x1000 sampleSpace [.sigfillset 0x1000,.sigdelset 9] :=
  (faithful_iff 0x1000 sampleSpace (by decide) sample_mapped _).mpr fun before ptr part t begun => by
    have called := part.subset (List.mem_append_right before (List.mem_singleton_self _))
    obtain rfl : ptr = 0x1000 := by simpa using called
    exact fills_self (performAll_mapped before sample_mapped begun)

/-- The pointer holds another address than the one of the set. -/
theorem sigfillset_fills_elsewhere : ¬ Faithful 0x1000 sampleSpace [.sigfillset 0x1800] := by
  intro faithful
  have room : MappedFor sampleSpace.mem 0x1800 sizeofPointer := (by decide : Mapped sampleSpace.mem 0x1800)
  have done : performAll 0x1000 [.sigfillset 0x1800] sampleSpace =
      some ⟨filled 0xff#8 sizeofPointer 0x1800 sampleSpace.mem,0⟩ := by
    simp only [performAll,Call.perform,sigfillset,(fill_eq 0xff#8 sizeofPointer (by decide) 0x1800 _).1 room]
    rfl
  have tells := faithful.members _ List.prefix_rfl _ done Set.univ rfl
  have told := ((tells_iff (filled_mapped _ _ _ _ _ sample_mapped) _).mp tells 1 (by decide)).mpr trivial
  rw [bitAt_filled,if_neg (by decide)] at told
  obtain ⟨byte,zero,one⟩ := told
  have clear : sampleSpace.mem (0x1000+BitVec.ofNat 64 (bitOf 1/8)) = some 0x00#8 := by decide
  rw [clear] at zero
  cases zero
  exact absurd one (by decide)

end Unixprog.Libmini
