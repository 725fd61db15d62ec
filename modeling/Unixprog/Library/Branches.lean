import Unixprog.Library.X86

/-! The machine of X86 with flags, comparisons, jumps and the arithmetic that sets flags. -/
namespace Unixprog.X86
open Words

structure Flags where
  zf : Bool
  sf : Bool
  of : Bool

def Flags.ofResult (result : Word) (overflow : Bool) : Flags := ⟨result = 0,result.msb,overflow⟩

def Flags.ofSub (a b : Word) : Flags := .ofResult (a-b) (a.ssubOverflow b)

inductive Cond
  | ge
  | ne

def Cond.holds (f : Flags) : Cond → Bool
  | .ge => f.sf == f.of
  | .ne => !f.zf

/-- `fetch` is a `mov` from a fixed address. -/
inductive Code
  | plain (i : Instr)
  | fetch (dst : Reg) (address : Word)
  | add (dst : Reg) (value : Word)
  | sub (dst : Reg) (value : Word)
  | neg (dst : Reg)
  | cmp (a : Reg) (value : Word)
  | jmp (target : Word)
  | jcc (cond : Cond) (target : Word)

variable {κ : Type}

structure Machine (κ : Type) where
  core : State κ
  flags : Flags

/-- Of the plain instructions only `xor` sets the flags. -/
def Instr.flags (s : State κ) (f : Flags) : Instr → Flags
  | .xor dst src => .ofResult (s.reg dst ^^^ s.reg src) false
  | _ => f

def Code.exec (K : Kernel κ) (next : Word) (s : Machine κ) : Code → Machine κ
  | .plain i => ⟨i.exec K next s.core,i.flags s.core s.flags⟩
  | .fetch dst address => ⟨{s.core.set dst (load s.core.mem address) with rip := next},s.flags⟩
  | .add dst value => ⟨{s.core.set dst (s.core.reg dst+value) with rip := next},
      .ofResult (s.core.reg dst+value) ((s.core.reg dst).saddOverflow value)⟩
  | .sub dst value => ⟨{s.core.set dst (s.core.reg dst-value) with rip := next},.ofSub (s.core.reg dst) value⟩
  | .neg dst => ⟨{s.core.set dst (-s.core.reg dst) with rip := next},.ofSub 0 (s.core.reg dst)⟩
  | .cmp a value => ⟨{s.core with rip := next},.ofSub (s.core.reg a) value⟩
  | .jmp target => ⟨{s.core with rip := target},s.flags⟩
  | .jcc cond target => ⟨{s.core with rip := if cond.holds s.flags then target else next},s.flags⟩

abbrev Listing := Word → Option (Code × Word)

/-- Execution by instructions that are `ok`. -/
inductive Reaches (P : Listing) (K : Kernel κ) (ok : Code → Prop) : Machine κ → Machine κ → Prop
  | refl (s : Machine κ) : Reaches P K ok s s
  | next {s t : Machine κ} {i : Code} {next : Word} (here : P s.core.rip = some (i,next)) (allowed : ok i)
      (rest : Reaches P K ok (i.exec K next s) t) : Reaches P K ok s t

/-- A line of a routine: a label, which names an address, or an instruction. -/
inductive Line
  | label (address : Word)
  | code (i : Code)

def Lists (P : Listing) : Word → List Line → Prop
  | _,[] => True
  | a,.label address::rest => a = address ∧ Lists P a rest
  | a,.code i::rest => ∃ next, P a = some (i,next) ∧ Lists P next rest

def codes (routine : List Line) : List Code := routine.filterMap fun line =>
  match line with
  | .label _ => none
  | .code i => some i

/-! Comparisons. -/

/-- After a comparison the sign flag is the overflow flag just if the first is not less. -/
@[simp] theorem ofSub_ge (a b : Word) : Cond.ge.holds (.ofSub a b) = b.sle a := by
  have low := BitVec.le_toInt a
  have high := BitVec.toInt_lt (x := a)
  have low' := BitVec.le_toInt b
  have high' := BitVec.toInt_lt (x := b)
  rw [Bool.eq_iff_iff]
  simp only [Cond.holds,Flags.ofSub,Flags.ofResult,BitVec.msb_eq_toInt,BitVec.toInt_sub,BitVec.ssubOverflow,
    BitVec.sle_eq_decide,Int.bmod_def,beq_iff_eq,decide_eq_true_eq]
  split
  · rw [Bool.eq_iff_iff]
    simp
    omega
  · rw [Bool.eq_iff_iff]
    simp
    omega

@[simp] theorem ofSub_ne (a b : Word) : Cond.ne.holds (.ofSub a b) = decide (a ≠ b) := by
  have same : a-b = 0 ↔ a = b := by
    rw [BitVec.sub_eq_iff_eq_add,BitVec.ofNat_eq_ofNat,BitVec.zero_add]
  simp only [Cond.holds,Flags.ofSub,Flags.ofResult,same,decide_not]

section Execution
variable {P : Listing} {K : Kernel κ} {ok : Code → Prop} {s t u : Machine κ}

theorem Reaches.trans (first : Reaches P K ok s t) (second : Reaches P K ok t u) : Reaches P K ok s u := by
  induction first with
  | refl s => exact second
  | next here allowed _ ih => exact .next here allowed (ih second)

/-- Where the next instruction is not ok, execution has come to its end. -/
def Halted (P : Listing) (ok : Code → Prop) (s : Machine κ) : Prop := ∀ i next, P s.core.rip = some (i,next) → ¬ ok i

theorem Reaches.unique (first : Reaches P K ok s t) (second : Reaches P K ok s u) (halted : Halted P ok t)
    (halted' : Halted P ok u) : u = t := by
  induction first with
  | refl s =>
    cases second with
    | refl => rfl
    | next here allowed => exact absurd allowed (halted _ _ here)
  | next here allowed _ ih =>
    cases second with
    | refl => exact absurd allowed (halted' _ _ here)
    | next here' _ rest =>
      rw [here] at here'
      cases here'
      exact ih rest halted

/-- The lines behind a label stand at its address. -/
theorem lists_label (before : List Line) {address a : Word} {rest : List Line}
    (lists : Lists P a (before ++ .label address::rest)) : Lists P address rest := by
  induction before generalizing a with
  | nil => exact lists.1 ▸ lists.2
  | cons line before ih =>
    cases line with
    | label => exact ih lists.2
    | code i =>
      obtain ⟨next,_,later⟩ := lists
      exact ih later

/-! The plain instructions of a listing are a program of their own. -/

def plainPart (P : Listing) : Program := fun a =>
  match P a with
  | some (.plain i,next) => some (i,next)
  | _ => none

def plain (routine : List Instr) : List Line := routine.map fun i => .code (.plain i)

theorem holds_plain (routine : List Instr) (a : Word) (lists : Lists P a (plain routine)) :
    Holds (plainPart P) a routine := by
  induction routine generalizing a with
  | nil => trivial
  | cons i rest ih =>
    obtain ⟨next,here,later⟩ := lists
    exact ⟨next,by simp [plainPart,here],ih next later⟩

theorem leads_reaches {s t : State κ} (leads : Leads (plainPart P) K s t) (f : Flags) :
    ∃ f', Reaches P K (fun _ => True) ⟨s,f⟩ ⟨t,f'⟩ := by
  induction leads generalizing f with
  | refl s => exact ⟨f,.refl _⟩
  | next one _ ih =>
    obtain ⟨⟨i,next⟩,found,rfl⟩ := Option.map_eq_some_iff.mp one
    simp only [plainPart] at found
    split at found
    next i' next' here =>
      cases found
      obtain ⟨f',rest⟩ := ih (i.flags _ f)
      exact ⟨f',.next here trivial rest⟩
    next => cases found

end Execution

end Unixprog.X86
