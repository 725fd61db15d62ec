import Unixprog.Library.Aborts

/-! Two procedures side by side. The second ends as the first does, in a related state; where the
first stops for an excused reason, nothing is asked of the second. -/
namespace Unixprog.Aborts

section Definitions
variable {σ τ ε α : Type}

inductive Matches (R : σ → τ → Prop) (excused : ε → Prop) : Result σ ε α → Result τ ε α → Prop
  | returned (value : α) {s : σ} {t : τ} (related : R s t) : Matches R excused (.returned value s) (.returned value t)
  | stopped (why : ε) {s : σ} {t : τ} (related : R s t) : Matches R excused (.stopped why s) (.stopped why t)
  | excused {why : ε} (excuse : excused why) (s : σ) (other : Result τ ε α) : Matches R excused (.stopped why s) other

def Mirrors (R : σ → τ → Prop) (excused : ε → Prop) (p : Proc σ ε α) (q : Proc τ ε α) : Prop :=
  ∀ s t, R s t → Matches R excused (p.run s) (q.run t)

end Definitions

section Rules
variable {σ τ ε α β : Type} {R : σ → τ → Prop} {excused : ε → Prop}

theorem mirrors_pure (value : α) : Mirrors R excused (pure value) (pure value) := fun _ _ => .returned value

theorem mirrors_abort (why : ε) : Mirrors R excused (abort why : Proc σ ε α) (abort why) := fun _ _ => .stopped why

theorem mirrors_change {f : σ → σ} {g : τ → τ} (related : ∀ s t, R s t → R (f s) (g t)) :
    Mirrors R excused (change f : Proc σ ε Unit) (change g) := fun s t start => .returned () (related s t start)

theorem mirrors_bind {first : Proc σ ε α} {first' : Proc τ ε α} {next : α → Proc σ ε β} {next' : α → Proc τ ε β}
    (one : Mirrors R excused first first') (two : ∀ value, Mirrors R excused (next value) (next' value)) :
    Mirrors R excused (first >>= next) (first' >>= next') := by
  intro s t start
  have begun := one s t start
  rw [bind_run,bind_run]
  generalize first.run s = ran at begun
  generalize first'.run t = ran' at begun
  cases begun with
  | returned value related => exact two value _ _ related
  | stopped why related => exact .stopped why related
  | excused excuse s other => exact .excused excuse s _

theorem mirrors_current {next : σ → Proc σ ε β} {next' : τ → Proc τ ε β}
    (rest : ∀ s t, R s t → Matches R excused ((next s).run s) ((next' t).run t)) :
    Mirrors R excused (current >>= next) (current >>= next') := rest

theorem mirrors_ite (c : Prop) [Decidable c] {first second : Proc σ ε α} {first' second' : Proc τ ε α}
    (one : Mirrors R excused first first') (two : Mirrors R excused second second') :
    Mirrors R excused (if c then first else second) (if c then first' else second') := by
  split
  next => exact one
  next => exact two

end Rules

end Unixprog.Aborts
