import Mathlib.Data.List.Basic
import Mathlib.Data.List.Infix

/-! Linear sweeps: one instruction decoded after the other, each known by its own
bytes alone. -/
namespace Unixprog.Sweeps
variable {α ι σ : Type}

/-- A decoder of single instructions, with the bytes of an instruction and the
address behind it. -/
structure Decoder (α ι σ : Type) where
  decode : List α → σ → Option ι
  code : ι → List α
  next : σ → ι → σ
  consumes : ∀ bytes addr insn, decode bytes addr = some insn → code insn <+: bytes
  nonempty : ∀ bytes addr insn, decode bytes addr = some insn → code insn ≠ []
  /-- An instruction is told by the bytes it is made of. -/
  told : ∀ bytes more addr insn, decode bytes addr = some insn → code insn <+: more → decode more addr = some insn

variable (D : Decoder α ι σ)

def Decoder.sweep : Nat → List α → σ → List ι
  | 0,_,_ => []
  | count+1,bytes,addr => match D.decode bytes addr with
    | none => []
    | some insn => insn::Decoder.sweep count (bytes.drop (D.code insn).length) (D.next addr insn)

def Decoder.instructions (bytes : List α) (addr : σ) : List ι := D.sweep bytes.length bytes addr

/-- The instructions that lie in the first `size` bytes. -/
def Decoder.within : Nat → List ι → List ι
  | _,[] => []
  | size,insn::insns => if (D.code insn).length ≤ size then insn::Decoder.within (size-(D.code insn).length) insns else []

variable {D}

theorem sweep_some {bytes : List α} {addr : σ} {insn : ι} (count : Nat) (found : D.decode bytes addr = some insn) :
    D.sweep (count+1) bytes addr = insn::D.sweep count (bytes.drop (D.code insn).length) (D.next addr insn) := by
  simp only [Decoder.sweep,found]

theorem sweep_none {bytes : List α} {addr : σ} (count : Nat) (missing : D.decode bytes addr = none) :
    D.sweep count bytes addr = [] := by
  cases count with
  | zero => rfl
  | succ count => simp only [Decoder.sweep,missing]

theorem code_positive {bytes : List α} {addr : σ} {insn : ι} (found : D.decode bytes addr = some insn) :
    0 < (D.code insn).length := List.length_pos_iff.mpr (D.nonempty _ _ _ found)

theorem code_fits {bytes : List α} {addr : σ} {insn : ι} (found : D.decode bytes addr = some insn) :
    (D.code insn).length ≤ bytes.length := (D.consumes _ _ _ found).length_le

theorem sweep_take (count : Nat) (bytes : List α) (addr : σ) (k : Nat) :
    (D.sweep count bytes addr).take k = D.sweep (min k count) bytes addr := by
  induction count generalizing bytes addr k with
  | zero => simp [Decoder.sweep]
  | succ count ih =>
    cases k with
    | zero => simp [Decoder.sweep]
    | succ k =>
      rw [Nat.add_min_add_right]
      cases found : D.decode bytes addr with
      | none => rw [sweep_none _ found,sweep_none _ found,List.take_nil]
      | some insn => rw [sweep_some _ found,sweep_some _ found,List.take_succ_cons,ih]

theorem sweep_enough (count : Nat) (bytes : List α) (addr : σ) (enough : bytes.length ≤ count) :
    D.sweep count bytes addr = D.instructions bytes addr := by
  unfold Decoder.instructions
  generalize same : bytes.length = size at enough
  induction size using Nat.strong_induction_on generalizing bytes addr count with
  | _ size ih =>
    cases found : D.decode bytes addr with
    | none => rw [sweep_none _ found,sweep_none _ found]
    | some insn =>
      have positive := code_positive found
      have fits := code_fits found
      obtain ⟨count,rfl⟩ : ∃ n, count = n+1 := ⟨count-1,by omega⟩
      obtain ⟨size,rfl⟩ : ∃ n, size = n+1 := ⟨size-1,by omega⟩
      rw [sweep_some _ found,sweep_some _ found]
      have rest : (bytes.drop (D.code insn).length).length = bytes.length-(D.code insn).length := List.length_drop
      have short := ih _ (by omega) size _ (D.next addr insn) rest (by omega)
      have long := ih _ (by omega) count _ (D.next addr insn) rest (by omega)
      rw [short,long]

theorem instructions_take (bytes : List α) (addr : σ) (k : Nat) :
    (D.instructions bytes addr).take k = D.sweep k bytes addr := by
  rw [← sweep_enough (max k bytes.length) bytes addr (by omega),sweep_take,Nat.min_eq_left (by omega)]

/-- A sweep over the front of some bytes is the sweep over all of them, as far as
it lies in the front. -/
theorem sweep_front (count : Nat) (front bytes : List α) (addr : σ) (part : front <+: bytes) :
    D.sweep count front addr = D.within front.length (D.sweep count bytes addr) := by
  induction count generalizing front bytes addr with
  | zero => rfl
  | succ count ih =>
    cases found : D.decode bytes addr with
    | none =>
      rw [sweep_none _ found,Decoder.within]
      cases other : D.decode front addr with
      | none => rw [sweep_none _ other]
      | some insn =>
        have whole := D.told _ bytes _ _ other ((D.consumes _ _ _ other).trans part)
        rw [found] at whole
        cases whole
    | some insn =>
      rw [sweep_some _ found,Decoder.within]
      split
      next fits =>
        have inside : D.code insn <+: front :=
          List.prefix_of_prefix_length_le (D.consumes _ _ _ found) part fits
        rw [sweep_some _ (D.told _ _ _ _ found inside),ih _ (bytes.drop (D.code insn).length) _ (part.drop _),
          List.length_drop]
      next long =>
        cases other : D.decode front addr with
        | none => rw [sweep_none _ other]
        | some short =>
          have whole := D.told _ bytes _ _ other ((D.consumes _ _ _ other).trans part)
          rw [found] at whole
          cases whole
          exact absurd (code_fits other) long

end Unixprog.Sweeps
