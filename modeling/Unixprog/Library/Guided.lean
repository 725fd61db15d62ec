import Unixprog.Library.Plays

/-! Plays against an environment that has a state of its own: each answer fits its state
and may change it. -/
namespace Unixprog.Plays

variable {Q : Type} {A : Q → Type} {α β σ ε W : Type}

inductive Follows (guide : W → Sigma A → W → Prop) : W → List (Sigma A) → W → Prop
  | nil (w : W) : Follows guide w [] w
  | cons {w v u : W} {x : Sigma A} {rest : List (Sigma A)} (first : guide w x v) (others : Follows guide v rest u) :
      Follows guide w (x::rest) u

variable {guide : W → Sigma A → W → Prop}

theorem follows_nil {w u : W} : Follows guide w [] u ↔ u = w := by
  constructor
  · intro follows
    cases follows
    rfl
  · rintro rfl
    exact .nil u

theorem follows_cons {w u : W} {x : Sigma A} {rest : List (Sigma A)} :
    Follows guide w (x::rest) u ↔ ∃ v, guide w x v ∧ Follows guide v rest u := by
  constructor
  · intro follows
    cases follows with
    | cons first others => exact ⟨_,first,others⟩
  · rintro ⟨v,first,others⟩
    exact .cons first others

theorem follows_append {w u : W} {first second : List (Sigma A)} :
    Follows guide w (first ++ second) u ↔ ∃ v, Follows guide w first v ∧ Follows guide v second u := by
  induction first generalizing w with
  | nil => simp [follows_nil]
  | cons x first ih =>
    simp only [List.cons_append,follows_cons,ih]
    constructor
    · rintro ⟨v,one,middle,begun,ended⟩
      exact ⟨middle,⟨v,one,begun⟩,ended⟩
    · rintro ⟨middle,⟨v,one,begun⟩,ended⟩
      exact ⟨v,one,middle,begun,ended⟩

/-- If the environment can always answer, there is a play. -/
theorem follows_exists (able : ∀ w q, ∃ a v, guide w ⟨q,a⟩ v) (p : Prog Q A α) (w : W) :
    ∃ play result u, Played p play result ∧ Follows guide w play u := by
  induction p generalizing w with
  | ret value => exact ⟨[],value,w,.ret value,.nil w⟩
  | ask q next ih =>
    obtain ⟨a,v,fits⟩ := able w q
    obtain ⟨play,result,u,goes,follows⟩ := ih a v
    exact ⟨_,result,u,.ask q next a play result goes,.cons fits follows⟩

/-- Every play comes to its end, and then `post` holds. -/
def Achieves (guide : W → Sigma A → W → Prop) (p : Task Q A σ ε α) (w : W)
    (post : W → List (Sigma A) → α → Prop) : Prop :=
  ∀ s play ending u, Played (p.run s) play ending → Follows guide w play u →
    ∃ value after, ending = .done value after ∧ post u play value

/-- No play comes to its end. -/
def Breaks (guide : W → Sigma A → W → Prop) (p : Task Q A σ ε α) (w : W) : Prop :=
  ∀ s play ending u, Played (p.run s) play ending → Follows guide w play u → ending.result = none

section Rules
variable {w : W} {post : W → List (Sigma A) → α → Prop}

theorem Achieves.weaken {other : W → List (Sigma A) → α → Prop} {p : Task Q A σ ε α}
    (achieves : Achieves guide p w post) (implied : ∀ u play value, post u play value → other u play value) :
    Achieves guide p w other := by
  intro s play ending u goes follows
  obtain ⟨value,after,ended,told⟩ := achieves s play ending u goes follows
  exact ⟨value,after,ended,implied u play value told⟩

theorem achieves_pure (value : α) (told : post w [] value) : Achieves guide (pure value : Task Q A σ ε α) w post := by
  intro s play ending u goes follows
  obtain ⟨rfl,rfl⟩ := plays_ret.mp goes
  obtain rfl := follows_nil.mp follows
  exact ⟨value,s,rfl,told⟩

theorem achieves_update {post : W → List (Sigma A) → Unit → Prop} (f : σ → σ) (told : post w [] ()) :
    Achieves guide (update f : Task Q A σ ε Unit) w post := by
  intro s play ending u goes follows
  obtain ⟨rfl,rfl⟩ := plays_ret.mp goes
  obtain rfl := follows_nil.mp follows
  exact ⟨(),f s,rfl,told⟩

theorem achieves_query (q : Q) {next : A q → Task Q A σ ε α}
    (rest : ∀ a v, guide w ⟨q,a⟩ v → Achieves guide (next a) v fun u play => post u (⟨q,a⟩::play)) :
    Achieves guide (query q >>= next) w post := by
  intro s play ending u goes follows
  obtain ⟨a,tail,rfl,then'⟩ := plays_query.mp goes
  obtain ⟨v,fits,follows⟩ := follows_cons.mp follows
  exact rest a v fits s tail ending u then' follows

theorem achieves_bind {middle : W → List (Sigma A) → β → Prop} {first : Task Q A σ ε β} {next : β → Task Q A σ ε α}
    (one : Achieves guide first w middle)
    (two : ∀ v before value, middle v before value → Achieves guide (next value) v fun u play => post u (before ++ play)) :
    Achieves guide (first >>= next) w post := by
  intro s play ending u goes follows
  obtain ⟨head,halfway,tail,rfl,begun,rest⟩ := plays_then.mp goes
  obtain ⟨v,follows,follows'⟩ := follows_append.mp follows
  obtain ⟨value,between,rfl,told⟩ := one s head halfway v begun follows
  exact two v head value told between tail ending u rest follows'

theorem achieves_cases {p : Task Q A σ ε α} (tells : σ → Task Q A σ ε α) (same : ∀ s, p.run s = (tells s).run s)
    (all : ∀ s, Achieves guide (tells s) w post) : Achieves guide p w post := by
  intro s
  rw [same s]
  exact all s s

theorem achieves_state {next : σ → Task Q A σ ε α} (all : ∀ s, Achieves guide (next s) w post) :
    Achieves guide (state >>= next) w post := fun s => all s s

theorem breaks_stop (why : ε) : Breaks guide (stop why : Task Q A σ ε α) w := by
  intro s play ending u goes follows
  obtain ⟨rfl,rfl⟩ := plays_ret.mp goes
  rfl

theorem breaks_query (q : Q) {next : A q → Task Q A σ ε α}
    (rest : ∀ a v, guide w ⟨q,a⟩ v → Breaks guide (next a) v) : Breaks guide (query q >>= next) w := by
  intro s play ending u goes follows
  obtain ⟨a,tail,rfl,then'⟩ := plays_query.mp goes
  obtain ⟨v,fits,follows⟩ := follows_cons.mp follows
  exact rest a v fits s tail ending u then' follows

theorem breaks_first {first : Task Q A σ ε β} (next : β → Task Q A σ ε α) (breaks : Breaks guide first w) :
    Breaks guide (first >>= next) w := by
  intro s play ending u goes follows
  obtain ⟨head,halfway,tail,rfl,begun,rest⟩ := plays_then.mp goes
  obtain ⟨v,follows,_⟩ := follows_append.mp follows
  have stopped := breaks s head halfway v begun follows
  cases halfway with
  | done value after => cases stopped
  | stopped why =>
    obtain ⟨_,rfl⟩ := plays_ret.mp rest
    rfl

theorem breaks_bind {middle : W → List (Sigma A) → β → Prop} {first : Task Q A σ ε β} {next : β → Task Q A σ ε α}
    (one : Achieves guide first w middle)
    (two : ∀ v before value, middle v before value → Breaks guide (next value) v) :
    Breaks guide (first >>= next) w := by
  intro s play ending u goes follows
  obtain ⟨head,halfway,tail,rfl,begun,rest⟩ := plays_then.mp goes
  obtain ⟨v,follows,follows'⟩ := follows_append.mp follows
  obtain ⟨value,between,rfl,told⟩ := one s head halfway v begun follows
  exact two v head value told between tail ending u rest follows'

end Rules
end Unixprog.Plays
