import Unixprog.Library.Aborts

/-! Procedures that never stop for a bad reason, beside what they keep. -/
namespace Unixprog.Aborts

structure Avoids {σ ε α : Type} (bad : ε → Prop) (R : σ → σ → Prop) (pre : σ → Prop) (p : Proc σ ε α)
    (post : α → σ → Prop) : Prop extends Keeps R pre p post where
  stops : ∀ s why t, pre s → p.run s = .stopped why t → ¬ bad why

section Rules
variable {σ ε α β : Type} {bad : ε → Prop} {R : σ → σ → Prop} {pre : σ → Prop} {middle : α → σ → Prop}
  {post : β → σ → Prop}

theorem Avoids.weaken {stronger : σ → Prop} {weaker : α → σ → Prop} {p : Proc σ ε α}
    (avoids : Avoids bad R pre p middle) (less : ∀ s, stronger s → pre s) (more : ∀ a s, middle a s → weaker a s) :
    Avoids bad R stronger p weaker :=
  ⟨avoids.toKeeps.weaken less more,fun s why t holds stopped => avoids.stops s why t (less s holds) stopped⟩

theorem avoids_pure (refl : ∀ s, R s s) (a : α) (holds : ∀ s, pre s → middle a s) :
    Avoids bad R pre (pure a : Proc σ ε α) middle :=
  ⟨keeps_pure refl a holds,fun _ _ _ _ stopped => by cases stopped⟩

theorem avoids_abort (refl : ∀ s, R s s) {why : ε} (good : ¬ bad why) :
    Avoids bad R pre (abort why : Proc σ ε α) middle := by
  refine ⟨keeps_abort refl why,?_⟩
  intro s why' t started stopped
  cases stopped
  exact good

theorem avoids_change {post : Unit → σ → Prop} (f : σ → σ) (related : ∀ s, pre s → R s (f s))
    (holds : ∀ s, pre s → post () (f s)) : Avoids bad R pre (change f : Proc σ ε Unit) post :=
  ⟨keeps_change f related holds,fun _ _ _ _ stopped => by cases stopped⟩

theorem avoids_bind (trans : ∀ s t u, R s t → R t u → R s u) {first : Proc σ ε α} {next : α → Proc σ ε β}
    (one : Avoids bad R pre first middle) (two : ∀ a, Avoids bad R (middle a) (next a) post) :
    Avoids bad R pre (first >>= next) post := by
  refine ⟨keeps_bind trans one.toKeeps fun a => (two a).toKeeps,?_⟩
  intro s why t started stopped
  rw [bind_run] at stopped
  cases ran : first.run s with
  | returned a u =>
    rw [ran] at stopped
    exact (two a).stops u why t (one.returns s a u started ran) stopped
  | stopped why' u =>
    rw [ran] at stopped
    cases stopped
    exact one.stops s why t started ran

theorem avoids_current {next : σ → Proc σ ε β} (rest : ∀ s, pre s → Avoids bad R (· = s) (next s) post) :
    Avoids bad R pre (current >>= next) post :=
  ⟨keeps_current fun s started => (rest s started).toKeeps,
    fun s why t started stopped => (rest s started).stops s why t rfl stopped⟩

theorem avoids_ite (c : Prop) [Decidable c] {first second : Proc σ ε β} (one : c → Avoids bad R pre first post)
    (two : ¬ c → Avoids bad R pre second post) : Avoids bad R pre (if c then first else second) post := by
  split
  next holds => exact one holds
  next fails => exact two fails

end Rules

end Unixprog.Aborts
