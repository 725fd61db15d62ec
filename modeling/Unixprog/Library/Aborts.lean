/-! Procedures on a state that return a value or stop for good, in either case in the
state they have reached. -/
namespace Unixprog.Aborts

inductive Result (σ ε α : Type)
  | returned (value : α) (after : σ)
  | stopped (why : ε) (after : σ)

structure Proc (σ ε α : Type) where
  run : σ → Result σ ε α

section Procedures
variable {σ ε α β : Type}

def Result.state : Result σ ε α → σ
  | .returned _ after => after
  | .stopped _ after => after

def Result.andThen : Result σ ε α → (α → Proc σ ε β) → Result σ ε β
  | .returned value after,next => (next value).run after
  | .stopped why after,_ => .stopped why after

instance : Monad (Proc σ ε) where
  pure value := ⟨fun s => .returned value s⟩
  bind first next := ⟨fun s => (first.run s).andThen next⟩

def current : Proc σ ε σ := ⟨fun s => .returned s s⟩

def change (f : σ → σ) : Proc σ ε Unit := ⟨fun s => .returned () (f s)⟩

def abort (why : ε) : Proc σ ε α := ⟨fun s => .stopped why s⟩

@[simp] theorem andThen_returned (value : α) (after : σ) (next : α → Proc σ ε β) :
    (Result.returned value after : Result σ ε α).andThen next = (next value).run after := rfl

@[simp] theorem andThen_stopped (why : ε) (after : σ) (next : α → Proc σ ε β) :
    (Result.stopped why after : Result σ ε α).andThen next = .stopped why after := rfl

@[simp] theorem state_returned (value : α) (after : σ) :
    (Result.returned value after : Result σ ε α).state = after := rfl

@[simp] theorem state_stopped (why : ε) (after : σ) : (Result.stopped why after : Result σ ε α).state = after := rfl

@[simp] theorem pure_run (value : α) (s : σ) : (pure value : Proc σ ε α).run s = .returned value s := rfl

@[simp] theorem bind_run (first : Proc σ ε α) (next : α → Proc σ ε β) (s : σ) :
    (first >>= next).run s = (first.run s).andThen next := rfl

@[simp] theorem current_run (s : σ) : (current : Proc σ ε σ).run s = .returned s s := rfl

@[simp] theorem change_run (f : σ → σ) (s : σ) : (change f : Proc σ ε Unit).run s = .returned () (f s) := rfl

@[simp] theorem abort_run (why : ε) (s : σ) : (abort why : Proc σ ε α).run s = .stopped why s := rfl

@[simp] theorem ite_run (c : Prop) [Decidable c] (first second : Proc σ ε α) (s : σ) :
    (if c then first else second).run s = if c then first.run s else second.run s := by
  split <;> rfl

theorem bind_returned {first : Proc σ ε α} {next : α → Proc σ ε β} {s t : σ} {b : β}
    (ok : (first >>= next).run s = .returned b t) :
    ∃ a u, first.run s = .returned a u ∧ (next a).run u = .returned b t := by
  rw [bind_run] at ok
  cases ran : first.run s with
  | returned a u =>
    rw [ran] at ok
    exact ⟨a,u,rfl,ok⟩
  | stopped why u =>
    rw [ran] at ok
    cases ok

end Procedures

/-! What a procedure keeps: from a state with `pre`, the state reached is related to the
first one however the procedure ends, and where it returns, `post` holds. -/

structure Keeps {σ ε α : Type} (R : σ → σ → Prop) (pre : σ → Prop) (p : Proc σ ε α) (post : α → σ → Prop) :
    Prop where
  ends : ∀ s, pre s → R s (p.run s).state
  returns : ∀ s a t, pre s → p.run s = .returned a t → post a t

section Kept
variable {σ ε α β : Type} {R : σ → σ → Prop} {pre : σ → Prop} {middle : α → σ → Prop} {post : β → σ → Prop}

theorem Keeps.weaken {stronger : σ → Prop} {weaker : α → σ → Prop} {p : Proc σ ε α} (keeps : Keeps R pre p middle)
    (less : ∀ s, stronger s → pre s) (more : ∀ a s, middle a s → weaker a s) : Keeps R stronger p weaker :=
  ⟨fun s holds => keeps.ends s (less s holds),
    fun s a t holds ok => more a t (keeps.returns s a t (less s holds) ok)⟩

theorem Keeps.relax {S : σ → σ → Prop} {p : Proc σ ε α} (keeps : Keeps R pre p middle)
    (implies : ∀ s t, R s t → S s t) : Keeps S pre p middle :=
  ⟨fun s holds => implies _ _ (keeps.ends s holds),keeps.returns⟩

theorem keeps_pure (refl : ∀ s, R s s) (a : α) (holds : ∀ s, pre s → middle a s) :
    Keeps R pre (pure a : Proc σ ε α) middle := by
  constructor
  · exact fun s _ => refl s
  · intro s b t started ok
    cases ok
    exact holds s started

theorem keeps_abort (refl : ∀ s, R s s) (why : ε) : Keeps R pre (abort why : Proc σ ε α) middle := by
  constructor
  · exact fun s _ => refl s
  · intro s b t _ ok
    cases ok

theorem keeps_change {post : Unit → σ → Prop} (f : σ → σ) (related : ∀ s, pre s → R s (f s))
    (holds : ∀ s, pre s → post () (f s)) : Keeps R pre (change f : Proc σ ε Unit) post := by
  constructor
  · exact related
  · intro s a t started ok
    cases ok
    exact holds s started

theorem keeps_bind (trans : ∀ s t u, R s t → R t u → R s u) {first : Proc σ ε α} {next : α → Proc σ ε β}
    (one : Keeps R pre first middle) (two : ∀ a, Keeps R (middle a) (next a) post) :
    Keeps R pre (first >>= next) post := by
  constructor
  case ends =>
    intro s started
    have begun := one.ends s started
    rw [bind_run]
    cases ran : first.run s with
    | returned a t =>
      rw [ran] at begun
      exact trans s t _ begun ((two a).ends t (one.returns s a t started ran))
    | stopped why t =>
      rw [ran] at begun
      exact begun
  case returns =>
    intro s b t started ok
    obtain ⟨a,u,begun,rest⟩ := bind_returned ok
    exact (two a).returns u b t (one.returns s a u started begun) rest

theorem keeps_current {next : σ → Proc σ ε β} (rest : ∀ s, pre s → Keeps R (· = s) (next s) post) :
    Keeps R pre (current >>= next) post := by
  constructor
  case ends =>
    intro s started
    exact (rest s started).ends s rfl
  case returns =>
    intro s b t started ok
    exact (rest s started).returns s b t rfl ok

theorem keeps_ite (c : Prop) [Decidable c] {first second : Proc σ ε β} (one : c → Keeps R pre first post)
    (two : ¬ c → Keeps R pre second post) : Keeps R pre (if c then first else second) post := by
  split
  next holds => exact one holds
  next fails => exact two fails

end Kept

end Unixprog.Aborts
