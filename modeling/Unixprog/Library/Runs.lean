import Mathlib.Logic.Basic

/-! Runs of a labelled transition system whose steps meet a condition. The
condition sees the state before a step and the step's label, never its result. -/
namespace Unixprog.Runs

structure System (σ ι : Type) where
  initial : σ → Prop
  step : σ → ι → σ → Prop

variable {σ ι β : Type}

/-- States at the end of a run all of whose steps met the condition. -/
inductive Guarded (S : System σ ι) (ok : σ → ι → Prop) : σ → Prop
  | start {s : σ} (first : S.initial s) : Guarded S ok s
  | next {s t : σ} {label : ι} (before : Guarded S ok s) (moved : S.step s label t)
      (meets : ok s label) : Guarded S ok t

def Reachable (S : System σ ι) : σ → Prop := Guarded S fun _ _ => True

theorem Guarded.weaken {S : System σ ι} {ok weaker : σ → ι → Prop} {s : σ} (run : Guarded S ok s)
    (implied : ∀ s label, ok s label → weaker s label) : Guarded S weaker s := by
  induction run with
  | start first => exact .start first
  | next _ moved meets ih => exact .next ih moved (implied _ _ meets)

theorem Guarded.invariant {S : System σ ι} {ok : σ → ι → Prop} (Inv : σ → Prop)
    (base : ∀ s, S.initial s → Inv s)
    (kept : ∀ s label t, Inv s → ok s label → S.step s label t → Inv t)
    {s : σ} (run : Guarded S ok s) : Inv s := by
  induction run with
  | start first => exact base _ first
  | next _ moved meets ih => exact kept _ _ _ ih meets moved

/-- A run with its states laid out: state `k+1` follows state `k` for `k < length`. -/
structure Run (S : System σ ι) (ok : σ → ι → Prop) (length : Nat)
    (states : Nat → σ) (labels : Nat → ι) : Prop where
  first : S.initial (states 0)
  moved : ∀ k < length, S.step (states k) (labels k) (states (k+1))
  meets : ∀ k < length, ok (states k) (labels k)

theorem Run.guarded {S : System σ ι} {ok : σ → ι → Prop} {length : Nat} {states : Nat → σ} {labels : Nat → ι}
    (run : Run S ok length states labels) {k : Nat} (bound : k ≤ length) : Guarded S ok (states k) := by
  induction k with
  | zero => exact .start run.first
  | succ k ih => exact .next (ih (by omega)) (run.moved k (by omega)) (run.meets k (by omega))

/-- The simulation rule with a ghost: if every step can be matched by a step of
the ghost, one ghost sequence accompanies the whole run. -/
theorem Run.ghost {S : System σ ι} {ok : σ → ι → Prop} {length : Nat} {states : Nat → σ}
    {labels : Nat → ι} (run : Run S ok length states labels)
    (R : σ → β → Prop) (link : σ → β → σ → β → Prop)
    (base : ∀ s, S.initial s → ∃ b, R s b)
    (kept : ∀ s label t b, R s b → ok s label → S.step s label t → ∃ c, R t c ∧ link s b t c) :
    ∃ ghost : Nat → β, (∀ k ≤ length, R (states k) (ghost k)) ∧
      ∀ k < length, link (states k) (ghost k) (states (k+1)) (ghost (k+1)) := by
  induction length with
  | zero =>
    obtain ⟨b,related⟩ := base _ run.first
    refine ⟨fun _ => b,?_,?_⟩
    · intro k bound
      rwa [Nat.le_zero.mp bound]
    · intro k bound
      omega
  | succ length ih =>
    obtain ⟨ghost,related,linked⟩ := ih ⟨run.first,fun k bound => run.moved k (by omega),
      fun k bound => run.meets k (by omega)⟩
    obtain ⟨c,last,joined⟩ := kept _ _ _ _ (related length (by omega))
      (run.meets length (by omega)) (run.moved length (by omega))
    refine ⟨fun k => if k ≤ length then ghost k else c,?_,?_⟩
    · intro k bound
      by_cases old : k ≤ length
      · simpa [old] using related k old
      · have final : k = length+1 := by omega
        simpa [final,Nat.not_succ_le_self] using last
    · intro k bound
      by_cases old : k < length
      · simpa [Nat.le_of_lt old,Nat.succ_le_of_lt old] using linked k old
      · have final : k = length := by omega
        simpa [final,Nat.not_succ_le_self] using joined

end Unixprog.Runs
