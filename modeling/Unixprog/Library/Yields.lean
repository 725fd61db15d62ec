import Unixprog.Library.Aborts

/-! What procedures add to a log in their state. A procedure that returns has added a word of a
language, one that stops has added the beginning of a word. -/
namespace Unixprog.Aborts

section Languages
variable {ο : Type}

def Silence (word : List ο) : Prop := word = []

def Single (P : ο → Prop) (word : List ο) : Prop := ∃ x, word = [x] ∧ P x

def Many (P : ο → Prop) (word : List ο) : Prop := ∀ x ∈ word, P x

def Sequel (L M : List ο → Prop) (word : List ο) : Prop := ∃ a b, word = a ++ b ∧ L a ∧ M b

theorem many_nil (P : ο → Prop) : Many P [] := fun _ member => absurd member List.not_mem_nil

end Languages

/-- `L` has a word, so that there is one that begins with what a stop leaves unfinished. -/
structure Yields {σ ε ο α : Type} (log : σ → List ο) (L : List ο → Prop) (pre : σ → Prop) (p : Proc σ ε α)
    (post : α → σ → Prop) : Prop where
  word : ∃ word, L word
  returns : ∀ s a t, pre s → p.run s = .returned a t → ∃ new, log t = log s ++ new ∧ L new ∧ post a t
  stops : ∀ s why t, pre s → p.run s = .stopped why t → ∃ new rest, log t = log s ++ new ∧ L (new ++ rest)

section Rules
variable {σ ε ο α β : Type} {log : σ → List ο} {L M : List ο → Prop} {pre : σ → Prop} {middle : α → σ → Prop}
  {post : β → σ → Prop}

theorem Yields.weaken {stronger : σ → Prop} {weaker : α → σ → Prop} {p : Proc σ ε α} (yields : Yields log L pre p middle)
    (within : ∀ word, L word → M word) (less : ∀ s, stronger s → pre s) (more : ∀ a s, middle a s → weaker a s) :
    Yields log M stronger p weaker := by
  constructor
  case word =>
    obtain ⟨word,good⟩ := yields.word
    exact ⟨word,within word good⟩
  case returns =>
    intro s a t holds ok
    obtain ⟨new,added,good,done⟩ := yields.returns s a t (less s holds) ok
    exact ⟨new,added,within new good,more a t done⟩
  case stops =>
    intro s why t holds ok
    obtain ⟨new,rest,added,good⟩ := yields.stops s why t (less s holds) ok
    exact ⟨new,rest,added,within _ good⟩

theorem yields_pure (a : α) (holds : ∀ s, pre s → middle a s) : Yields log Silence pre (pure a : Proc σ ε α) middle := by
  constructor
  case word => exact ⟨[],rfl⟩
  case returns =>
    intro s b t started ok
    cases ok
    exact ⟨[],(List.append_nil _).symm,rfl,holds s started⟩
  case stops =>
    intro s why t started ok
    cases ok

theorem yields_abort (why : ε) (word : ∃ word, L word) : Yields log L pre (abort why : Proc σ ε α) middle := by
  constructor
  case word => exact word
  case returns =>
    intro s a t started ok
    cases ok
  case stops =>
    intro s why' t started ok
    cases ok
    obtain ⟨word,good⟩ := word
    exact ⟨[],word,(List.append_nil _).symm,good⟩

theorem yields_never (word : ∃ word, L word) (p : Proc σ ε α) : Yields log L (fun _ => False) p middle :=
  ⟨word,fun _ _ _ never => never.elim,fun _ _ _ never => never.elim⟩

/-- A change that leaves the log as it is. -/
theorem yields_change {after : Unit → σ → Prop} (f : σ → σ) (quiet : ∀ s, log (f s) = log s)
    (holds : ∀ s, pre s → after () (f s)) : Yields log Silence pre (change f : Proc σ ε Unit) after := by
  constructor
  case word => exact ⟨[],rfl⟩
  case returns =>
    intro s a t started ok
    cases ok
    exact ⟨[],(quiet s).trans (List.append_nil _).symm,rfl,holds s started⟩
  case stops =>
    intro s why t started ok
    cases ok

theorem yields_bind {first : Proc σ ε α} {next : α → Proc σ ε β} (one : Yields log L pre first middle)
    (word : ∃ word, M word) (two : ∀ a, Yields log M (middle a) (next a) post) :
    Yields log (Sequel L M) pre (first >>= next) post := by
  constructor
  case word =>
    obtain ⟨a,good⟩ := one.word
    obtain ⟨b,good'⟩ := word
    exact ⟨a ++ b,a,b,rfl,good,good'⟩
  case returns =>
    intro s b t started ok
    obtain ⟨a,u,begun,rest⟩ := bind_returned ok
    obtain ⟨new,added,good,holds⟩ := one.returns s a u started begun
    obtain ⟨new',added',good',done⟩ := (two a).returns u b t holds rest
    exact ⟨new ++ new',by rw [added',added,List.append_assoc],⟨new,new',rfl,good,good'⟩,done⟩
  case stops =>
    intro s why t started ok
    rw [bind_run] at ok
    cases ran : first.run s with
    | returned a u =>
      rw [ran] at ok
      obtain ⟨new,added,good,holds⟩ := one.returns s a u started ran
      obtain ⟨new',rest,added',good'⟩ := (two a).stops u why t holds ok
      exact ⟨new ++ new',rest,by rw [added',added,List.append_assoc],new,new' ++ rest,by simp,good,good'⟩
    | stopped why' u =>
      rw [ran] at ok
      cases ok
      obtain ⟨new,rest,added,good⟩ := one.stops s why t started ran
      obtain ⟨b,good'⟩ := word
      exact ⟨new,rest ++ b,added,new ++ rest,b,by simp,good,good'⟩

/-- Behind a procedure that adds nothing. -/
theorem yields_then {first : Proc σ ε α} {next : α → Proc σ ε β} (one : Yields log Silence pre first middle)
    (word : ∃ word, L word) (two : ∀ a, Yields log L (middle a) (next a) post) :
    Yields log L pre (first >>= next) post := by
  refine (yields_bind one word two).weaken ?_ (fun _ holds => holds) fun _ _ holds => holds
  rintro _ ⟨_,b,rfl,rfl,good⟩
  exact good

theorem yields_ite (c : Prop) [Decidable c] {first second : Proc σ ε β} (one : c → Yields log L pre first post)
    (two : ¬ c → Yields log L pre second post) : Yields log L pre (if c then first else second) post := by
  split
  next holds => exact one holds
  next fails => exact two fails

end Rules

end Unixprog.Aborts
