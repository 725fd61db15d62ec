import Mathlib.Data.List.Basic
import Mathlib.Data.Sigma.Basic

/-! Programs that only interact: a program asks queries, an environment answers
them in any way it likes, and a play is the list of what was asked and answered. -/
namespace Unixprog.Plays

inductive Prog (Q : Type) (A : Q → Type) (α : Type)
  | ret (value : α)
  | ask (q : Q) (next : A q → Prog Q A α)

variable {Q : Type} {A : Q → Type} {α β σ ε : Type}

def Prog.bind : Prog Q A α → (α → Prog Q A β) → Prog Q A β
  | .ret value,f => f value
  | .ask q next,f => .ask q fun a => (next a).bind f

inductive Played : Prog Q A α → List (Sigma A) → α → Prop
  | ret (value : α) : Played (.ret value) [] value
  | ask (q : Q) (next : A q → Prog Q A α) (a : A q) (rest : List (Sigma A)) (value : α)
      (goes : Played (next a) rest value) : Played (.ask q next) (⟨q,a⟩::rest) value

/-- The play against an environment that gives each query its answer. -/
def Prog.play (answer : (q : Q) → A q) : Prog Q A α → List (Sigma A) × α
  | .ret value => ([],value)
  | .ask q next =>
    let rest := (next (answer q)).play answer
    (⟨q,answer q⟩::rest.1,rest.2)

theorem play_played (answer : (q : Q) → A q) (p : Prog Q A α) : Played p (p.play answer).1 (p.play answer).2 := by
  induction p with
  | ret value => exact .ret value
  | ask q next ih => exact .ask q next (answer q) _ _ (ih (answer q))

theorem play_answers (answer : (q : Q) → A q) (p : Prog Q A α) : ∀ x ∈ (p.play answer).1, x = ⟨x.1,answer x.1⟩ := by
  induction p with
  | ret value => exact fun x member => absurd member List.not_mem_nil
  | ask q next ih =>
    intro x member
    obtain rfl | later := List.mem_cons.mp member
    · rfl
    · exact ih (answer q) x later

theorem plays_ret {value result : α} {play : List (Sigma A)} :
    Played (.ret value : Prog Q A α) play result ↔ play = [] ∧ result = value := by
  constructor
  · intro goes
    cases goes
    exact ⟨rfl,rfl⟩
  · rintro ⟨rfl,rfl⟩
    exact .ret result

theorem plays_ask {q : Q} {next : A q → Prog Q A α} {play : List (Sigma A)} {result : α} :
    Played (.ask q next) play result ↔ ∃ a rest, play = ⟨q,a⟩::rest ∧ Played (next a) rest result := by
  constructor
  · intro goes
    cases goes with
    | ask q next a rest value goes => exact ⟨a,rest,rfl,goes⟩
  · rintro ⟨a,rest,rfl,goes⟩
    exact .ask q next a rest result goes

theorem plays_bind {p : Prog Q A α} {f : α → Prog Q A β} {play : List (Sigma A)} {result : β} :
    Played (p.bind f) play result ↔
      ∃ first value second, play = first ++ second ∧ Played p first value ∧ Played (f value) second result := by
  induction p generalizing play with
  | ret value =>
    constructor
    · intro goes
      exact ⟨[],value,play,rfl,.ret value,goes⟩
    · rintro ⟨first,other,second,rfl,one,two⟩
      obtain ⟨rfl,rfl⟩ := plays_ret.mp one
      exact two
  | ask q next ih =>
    simp only [Prog.bind,plays_ask]
    constructor
    · rintro ⟨a,rest,rfl,goes⟩
      obtain ⟨first,value,second,rfl,one,two⟩ := (ih a).mp goes
      exact ⟨⟨q,a⟩::first,value,second,rfl,⟨a,first,rfl,one⟩,two⟩
    · rintro ⟨first,value,second,rfl,⟨a,rest,rfl,one⟩,two⟩
      exact ⟨a,rest ++ second,rfl,(ih a).mpr ⟨rest,value,second,rfl,one,two⟩⟩

/-! Programs with a state, which may also stop for good. -/

inductive Ending (σ ε α : Type)
  | done (value : α) (after : σ)
  | stopped (why : ε)

structure Task (Q : Type) (A : Q → Type) (σ ε α : Type) where
  run : σ → Prog Q A (Ending σ ε α)

def Ending.result : Ending σ ε α → Option α
  | .done value _ => some value
  | .stopped _ => none

def Ending.andThen : Ending σ ε α → (α → Task Q A σ ε β) → Prog Q A (Ending σ ε β)
  | .done value after,next => (next value).run after
  | .stopped why,_ => .ret (.stopped why)

instance : Monad (Task Q A σ ε) where
  pure value := ⟨fun s => .ret (.done value s)⟩
  bind first next := ⟨fun s => (first.run s).bind fun ending => ending.andThen next⟩

def query (q : Q) : Task Q A σ ε (A q) := ⟨fun s => .ask q fun a => .ret (.done a s)⟩

def stop (why : ε) : Task Q A σ ε α := ⟨fun _ => .ret (.stopped why)⟩

def state : Task Q A σ ε σ := ⟨fun s => .ret (.done s s)⟩

def update (f : σ → σ) : Task Q A σ ε Unit := ⟨fun s => .ret (.done () (f s))⟩

@[simp] theorem bind_ret (value : α) (f : α → Prog Q A β) : (Prog.ret value : Prog Q A α).bind f = f value := rfl

@[simp] theorem bind_ask (q : Q) (next : A q → Prog Q A α) (f : α → Prog Q A β) :
    (Prog.ask q next).bind f = .ask q fun a => (next a).bind f := rfl

@[simp] theorem andThen_done (value : α) (after : σ) (next : α → Task Q A σ ε β) :
    (Ending.done value after : Ending σ ε α).andThen next = (next value).run after := rfl

@[simp] theorem andThen_stopped (why : ε) (next : α → Task Q A σ ε β) :
    (Ending.stopped why : Ending σ ε α).andThen next = .ret (.stopped why) := rfl

@[simp] theorem pure_run (value : α) (s : σ) :
    (pure value : Task Q A σ ε α).run s = .ret (.done value s) := rfl

@[simp] theorem then_run (first : Task Q A σ ε α) (next : α → Task Q A σ ε β) (s : σ) :
    (first >>= next).run s = (first.run s).bind fun ending => ending.andThen next := rfl

@[simp] theorem query_run (q : Q) (s : σ) :
    (query q : Task Q A σ ε (A q)).run s = .ask q fun a => .ret (.done a s) := rfl

@[simp] theorem stop_run (why : ε) (s : σ) : (stop why : Task Q A σ ε α).run s = .ret (.stopped why) := rfl

@[simp] theorem state_run (s : σ) : (state : Task Q A σ ε σ).run s = .ret (.done s s) := rfl

@[simp] theorem update_run (f : σ → σ) (s : σ) :
    (update f : Task Q A σ ε Unit).run s = .ret (.done () (f s)) := rfl

theorem plays_then {first : Task Q A σ ε α} {next : α → Task Q A σ ε β} {s : σ} {play : List (Sigma A)}
    {ending : Ending σ ε β} : Played ((first >>= next).run s) play ending ↔
      ∃ one middle two, play = one ++ two ∧ Played (first.run s) one middle ∧
        Played (middle.andThen next) two ending := plays_bind

theorem Prog.bind_assoc {γ : Type} (p : Prog Q A α) (f : α → Prog Q A β) (g : β → Prog Q A γ) :
    (p.bind f).bind g = p.bind fun value => (f value).bind g := by
  induction p with
  | ret value => rfl
  | ask q next ih => exact congrArg (Prog.ask q) (funext ih)

theorem then_assoc {γ : Type} (p : Task Q A σ ε α) (f : α → Task Q A σ ε β) (g : β → Task Q A σ ε γ) :
    p >>= f >>= g = p >>= fun value => f value >>= g := by
  refine congrArg Task.mk (funext fun s => ?_)
  refine (Prog.bind_assoc _ _ _).trans (congrArg ((p.run s).bind) (funext fun ending => ?_))
  cases ending with
  | done value after => rfl
  | stopped why => rfl

theorem split_unique {x y : α} {before after before' after' : List α} (only : α → Prop)
    (same : before ++ x::after = before' ++ y::after') (first : ∀ z ∈ before, ¬ only z)
    (last : ∀ z ∈ after, ¬ only z) (special : only y) : before' = before ∧ y = x ∧ after' = after := by
  induction before generalizing before' with
  | nil =>
    cases before' with
    | nil =>
      obtain ⟨rfl,rfl⟩ := List.cons.inj same
      exact ⟨rfl,rfl,rfl⟩
    | cons z before' =>
      obtain ⟨_,rfl⟩ := List.cons.inj same
      exact absurd special (last y (List.mem_append_right _ (List.mem_cons_self ..)))
  | cons z before ih =>
    cases before' with
    | nil =>
      obtain ⟨rfl,_⟩ := List.cons.inj same
      exact absurd special (first _ (List.mem_cons_self ..))
    | cons z' before' =>
      obtain ⟨rfl,tail⟩ := List.cons.inj same
      obtain ⟨rfl,rfl,rfl⟩ := ih tail fun w member => first w (List.mem_cons_of_mem _ member)
      exact ⟨rfl,rfl,rfl⟩

/-! Tame tasks ask no query but their own, come to an end exactly when all answers
were mild, and then return a value of some kind. -/

structure Tame (own : Q → Prop) (mild : Sigma A → Prop) (kind : α → Prop) (p : Task Q A σ ε α) : Prop where
  asks : ∀ s play ending, Played (p.run s) play ending → ∀ x ∈ play, own x.1
  ends : ∀ s play ending, Played (p.run s) play ending → (ending.result.isSome ↔ ∀ x ∈ play, mild x)
  returns : ∀ s play ending value, Played (p.run s) play ending → ending.result = some value → kind value

structure Harsh (own : Q → Prop) (p : Task Q A σ ε α) : Prop where
  asks : ∀ s play ending, Played (p.run s) play ending → ∀ x ∈ play, own x.1
  ends : ∀ s play ending, Played (p.run s) play ending → ending.result = none

section Rules
variable {own : Q → Prop} {mild : Sigma A → Prop} {kind : α → Prop} {kind' : β → Prop}

theorem tame_pure (value : α) (good : kind value) : Tame own mild kind (pure value : Task Q A σ ε α) := by
  constructor
  case asks =>
    intro s play ending goes
    obtain ⟨rfl,rfl⟩ := plays_ret.mp goes
    exact fun x member => absurd member List.not_mem_nil
  case ends =>
    intro s play ending goes
    obtain ⟨rfl,rfl⟩ := plays_ret.mp goes
    exact ⟨fun _ x member => absurd member List.not_mem_nil,fun _ => rfl⟩
  case returns =>
    intro s play ending result goes same
    obtain ⟨rfl,rfl⟩ := plays_ret.mp goes
    cases same
    exact good

theorem tame_state : Tame own mild (fun _ => True) (state : Task Q A σ ε σ) := by
  constructor
  case asks =>
    intro s play ending goes
    obtain ⟨rfl,rfl⟩ := plays_ret.mp goes
    exact fun x member => absurd member List.not_mem_nil
  case ends =>
    intro s play ending goes
    obtain ⟨rfl,rfl⟩ := plays_ret.mp goes
    exact ⟨fun _ x member => absurd member List.not_mem_nil,fun _ => rfl⟩
  case returns => exact fun _ _ _ _ _ _ => trivial

theorem tame_update (f : σ → σ) : Tame own mild (fun _ => True) (update f : Task Q A σ ε Unit) := by
  constructor
  case asks =>
    intro s play ending goes
    obtain ⟨rfl,rfl⟩ := plays_ret.mp goes
    exact fun x member => absurd member List.not_mem_nil
  case ends =>
    intro s play ending goes
    obtain ⟨rfl,rfl⟩ := plays_ret.mp goes
    exact ⟨fun _ x member => absurd member List.not_mem_nil,fun _ => rfl⟩
  case returns => exact fun _ _ _ _ _ _ => trivial

/-- What a task does may be told for each state by another task. -/
theorem tame_cases {p : Task Q A σ ε α} (tells : σ → Task Q A σ ε α) (same : ∀ s, p.run s = (tells s).run s)
    (all : ∀ s, Tame own mild kind (tells s)) : Tame own mild kind p := by
  constructor
  case asks =>
    intro s
    rw [same s]
    exact (all s).asks s
  case ends =>
    intro s
    rw [same s]
    exact (all s).ends s
  case returns =>
    intro s
    rw [same s]
    exact (all s).returns s

theorem tame_bind {first : Task Q A σ ε α} {next : α → Task Q A σ ε β} (one : Tame own mild kind first)
    (two : ∀ value, kind value → Tame own mild kind' (next value)) : Tame own mild kind' (first >>= next) := by
  constructor
  case asks =>
    intro s play ending goes x member
    obtain ⟨head,middle,tail,rfl,begun,rest⟩ := plays_then.mp goes
    obtain before | later := List.mem_append.mp member
    · exact one.asks s head middle begun x before
    · cases middle with
      | done value after =>
        exact (two value (one.returns s head _ value begun rfl)).asks after tail ending rest x later
      | stopped why =>
        obtain ⟨rfl,_⟩ := plays_ret.mp rest
        exact absurd later List.not_mem_nil
  case ends =>
    intro s play ending goes
    obtain ⟨head,middle,tail,rfl,begun,rest⟩ := plays_then.mp goes
    have start := one.ends s head middle begun
    cases middle with
    | done value after =>
      have all := start.mp rfl
      rw [(two value (one.returns s head _ value begun rfl)).ends after tail ending rest]
      simp only [List.forall_mem_append,and_iff_right all]
    | stopped why =>
      obtain ⟨rfl,rfl⟩ := plays_ret.mp rest
      rw [List.append_nil]
      exact start
  case returns =>
    intro s play ending value goes same
    obtain ⟨head,middle,tail,rfl,begun,rest⟩ := plays_then.mp goes
    cases middle with
    | done middle after =>
      exact (two middle (one.returns s head _ middle begun rfl)).returns after tail ending value rest same
    | stopped why =>
      obtain ⟨_,rfl⟩ := plays_ret.mp rest
      cases same

theorem harsh_stop (why : ε) : Harsh own (stop why : Task Q A σ ε α) := by
  constructor
  case asks =>
    intro s play ending goes
    obtain ⟨rfl,rfl⟩ := plays_ret.mp goes
    exact fun x member => absurd member List.not_mem_nil
  case ends =>
    intro s play ending goes
    obtain ⟨rfl,rfl⟩ := plays_ret.mp goes
    rfl

theorem plays_query {q : Q} {next : A q → Task Q A σ ε α} {s : σ} {play : List (Sigma A)} {ending : Ending σ ε α} :
    Played ((query q >>= next).run s) play ending ↔
      ∃ a rest, play = ⟨q,a⟩::rest ∧ Played ((next a).run s) rest ending := plays_ask

theorem harsh_query (q : Q) (next : A q → Task Q A σ ε α) (mine : own q) (all : ∀ a, Harsh own (next a)) :
    Harsh own (query q >>= next) := by
  constructor
  case asks =>
    intro s play ending goes x member
    obtain ⟨a,rest,rfl,tail⟩ := plays_query.mp goes
    obtain rfl | later := List.mem_cons.mp member
    · exact mine
    · exact (all a).asks s rest ending tail x later
  case ends =>
    intro s play ending goes
    obtain ⟨a,rest,rfl,tail⟩ := plays_query.mp goes
    exact (all a).ends s rest ending tail

theorem tame_query (q : Q) (next : A q → Task Q A σ ε α) (mine : own q)
    (good : ∀ a, mild ⟨q,a⟩ → Tame own mild kind (next a)) (bad : ∀ a, ¬ mild ⟨q,a⟩ → Harsh own (next a)) :
    Tame own mild kind (query q >>= next) := by
  constructor
  case asks =>
    intro s play ending goes x member
    obtain ⟨a,rest,rfl,tail⟩ := plays_query.mp goes
    obtain rfl | later := List.mem_cons.mp member
    · exact mine
    · by_cases gentle : mild ⟨q,a⟩
      · exact (good a gentle).asks s rest ending tail x later
      · exact (bad a gentle).asks s rest ending tail x later
  case ends =>
    intro s play ending goes
    obtain ⟨a,rest,rfl,tail⟩ := plays_query.mp goes
    by_cases gentle : mild ⟨q,a⟩
    · rw [(good a gentle).ends s rest ending tail,List.forall_mem_cons,and_iff_right gentle]
    · rw [(bad a gentle).ends s rest ending tail,List.forall_mem_cons]
      simp [gentle]
  case returns =>
    intro s play ending value goes same
    obtain ⟨a,rest,rfl,tail⟩ := plays_query.mp goes
    by_cases gentle : mild ⟨q,a⟩
    · exact (good a gentle).returns s rest ending value tail same
    · rw [(bad a gentle).ends s rest ending tail] at same
      cases same

/-! Tasks that ask one query `q` of another's exactly once and return what its answer says. -/

structure Once (own : Q → Prop) (mild : Sigma A → Prop) (q : Q) (tells : A q → α) (p : Task Q A σ ε α) : Prop where
  ends : ∀ s play ending, Played (p.run s) play ending → (ending.result.isSome ↔ ∀ x ∈ play, mild x)
  once : ∀ s play ending value, Played (p.run s) play ending → ending.result = some value →
    ∃ before a after, play = before ++ ⟨q,a⟩::after ∧ (∀ x ∈ before, own x.1) ∧ (∀ x ∈ after, own x.1) ∧
      value = tells a

variable {q : Q} {tells : A q → α}

theorem once_query (next : A q → Task Q A σ ε α) (gentle : ∀ a, mild ⟨q,a⟩)
    (rest : ∀ a, Tame own mild (· = tells a) (next a)) : Once own mild q tells (query q >>= next) := by
  constructor
  case ends =>
    intro s play ending goes
    obtain ⟨a,tail,rfl,then'⟩ := plays_query.mp goes
    rw [(rest a).ends s tail ending then',List.forall_mem_cons,and_iff_right (gentle a)]
  case once =>
    intro s play ending value goes same
    obtain ⟨a,tail,rfl,then'⟩ := plays_query.mp goes
    exact ⟨[],a,tail,rfl,fun x member => absurd member List.not_mem_nil,(rest a).asks s tail ending then',
      (rest a).returns s tail ending value then' same⟩

theorem once_bind {first : Task Q A σ ε β} {next : β → Task Q A σ ε α} (one : Tame own mild kind' first)
    (two : ∀ value, kind' value → Once own mild q tells (next value)) :
    Once own mild q tells (first >>= next) := by
  constructor
  case ends =>
    intro s play ending goes
    obtain ⟨head,middle,tail,rfl,begun,rest⟩ := plays_then.mp goes
    have start := one.ends s head middle begun
    cases middle with
    | done value after =>
      have all := start.mp rfl
      rw [(two value (one.returns s head _ value begun rfl)).ends after tail ending rest]
      simp only [List.forall_mem_append,and_iff_right all]
    | stopped why =>
      obtain ⟨rfl,rfl⟩ := plays_ret.mp rest
      rw [List.append_nil]
      exact start
  case once =>
    intro s play ending value goes same
    obtain ⟨head,middle,tail,rfl,begun,rest⟩ := plays_then.mp goes
    have mine := one.asks s head middle begun
    cases middle with
    | done middle after =>
      obtain ⟨before,a,later,rfl,some,others,told⟩ :=
        (two middle (one.returns s head _ middle begun rfl)).once after tail ending value rest same
      refine ⟨head ++ before,a,later,(List.append_assoc _ _ _).symm,?_,others,told⟩
      exact List.forall_mem_append.mpr ⟨mine,some⟩
    | stopped why =>
      obtain ⟨_,rfl⟩ := plays_ret.mp rest
      cases same

end Rules

/-! What is true of the plays that end with a value: `inv` holds of the state
throughout, if the answers are fair. -/

def Ensures (inv : σ → Prop) (fair : Sigma A → Prop) (p : Task Q A σ ε α)
    (post : List (Sigma A) → α → Prop) : Prop :=
  ∀ s play value after, Played (p.run s) play (.done value after) → inv s → (∀ x ∈ play, fair x) →
    inv after ∧ post play value

section Ensured
variable {inv : σ → Prop} {fair : Sigma A → Prop} {post : List (Sigma A) → α → Prop}

theorem Ensures.weaken {other : List (Sigma A) → α → Prop} {p : Task Q A σ ε α} (ensures : Ensures inv fair p post)
    (implied : ∀ play value, post play value → other play value) : Ensures inv fair p other := by
  intro s play value after goes holds fairly
  obtain ⟨kept,told⟩ := ensures s play value after goes holds fairly
  exact ⟨kept,implied play value told⟩

theorem ensures_pure (value : α) (told : post [] value) : Ensures inv fair (pure value : Task Q A σ ε α) post := by
  intro s play result after goes holds fairly
  obtain ⟨rfl,same⟩ := plays_ret.mp goes
  cases same
  exact ⟨holds,told⟩

theorem ensures_update {post : List (Sigma A) → Unit → Prop} (f : σ → σ) (kept : ∀ s, inv s → inv (f s))
    (told : post [] ()) : Ensures inv fair (update f : Task Q A σ ε Unit) post := by
  intro s play result after goes holds fairly
  obtain ⟨rfl,same⟩ := plays_ret.mp goes
  cases same
  exact ⟨kept s holds,told⟩

theorem ensures_stop (why : ε) : Ensures inv fair (stop why : Task Q A σ ε α) post := by
  intro s play result after goes
  obtain ⟨_,same⟩ := plays_ret.mp goes
  cases same

theorem ensures_query (q : Q) {next : A q → Task Q A σ ε α}
    (rest : ∀ a, fair ⟨q,a⟩ → Ensures inv fair (next a) fun play => post (⟨q,a⟩::play)) :
    Ensures inv fair (query q >>= next) post := by
  intro s play value after goes holds fairly
  obtain ⟨a,tail,rfl,then'⟩ := plays_query.mp goes
  obtain ⟨first,others⟩ := List.forall_mem_cons.mp fairly
  exact rest a first s tail value after then' holds others

theorem ensures_bind {middle : List (Sigma A) → β → Prop} {first : Task Q A σ ε β} {next : β → Task Q A σ ε α}
    (one : Ensures inv fair first middle)
    (two : ∀ before value, middle before value → Ensures inv fair (next value) fun play => post (before ++ play)) :
    Ensures inv fair (first >>= next) post := by
  intro s play value after goes holds fairly
  obtain ⟨head,ending,tail,rfl,begun,rest⟩ := plays_then.mp goes
  obtain ⟨fair1,fair2⟩ := List.forall_mem_append.mp fairly
  cases ending with
  | done halfway between =>
    obtain ⟨kept,told⟩ := one s head halfway between begun holds fair1
    exact two head halfway told between tail value after rest kept fair2
  | stopped why =>
    obtain ⟨_,same⟩ := plays_ret.mp rest
    cases same

theorem ensures_state {next : σ → Task Q A σ ε α} (all : ∀ s, inv s → ∀ play value after,
    Played ((next s).run s) play (.done value after) → (∀ x ∈ play, fair x) → inv after ∧ post play value) :
    Ensures inv fair (state >>= next) post := by
  intro s play value after goes holds fairly
  exact all s holds play value after goes fairly

end Ensured

theorem Ensures.fairer {inv : σ → Prop} {fair fairer : Sigma A → Prop} {p : Task Q A σ ε α}
    {post : List (Sigma A) → α → Prop} (ensures : Ensures inv fair p post) (implied : ∀ x, fairer x → fair x) :
    Ensures inv fairer p post := by
  intro s play value after goes holds fairly
  exact ensures s play value after goes holds fun x member => implied x (fairly x member)

/-! What a task asks, on every play with fair answers, however it ends. -/

def Asks (fair : Sigma A → Prop) (own : Q → Prop) (p : Task Q A σ ε α) : Prop :=
  ∀ s play ending, Played (p.run s) play ending → (∀ x ∈ play, fair x) → ∀ x ∈ play, own x.1

section Asked
variable {fair : Sigma A → Prop} {own : Q → Prop}

theorem asks_pure (value : α) : Asks fair own (pure value : Task Q A σ ε α) := by
  intro s play ending goes _ x member
  obtain ⟨rfl,_⟩ := plays_ret.mp goes
  exact absurd member List.not_mem_nil

theorem asks_stop (why : ε) : Asks fair own (stop why : Task Q A σ ε α) := by
  intro s play ending goes _ x member
  obtain ⟨rfl,_⟩ := plays_ret.mp goes
  exact absurd member List.not_mem_nil

theorem asks_state {next : σ → Task Q A σ ε α} (all : ∀ s, Asks fair own (next s)) :
    Asks fair own (state >>= next) := fun s play ending goes => all s s play ending goes

theorem asks_update (f : σ → σ) : Asks fair own (update f : Task Q A σ ε Unit) := by
  intro s play ending goes _ x member
  obtain ⟨rfl,_⟩ := plays_ret.mp goes
  exact absurd member List.not_mem_nil

theorem asks_query (q : Q) {next : A q → Task Q A σ ε α} (mine : own q)
    (rest : ∀ a, fair ⟨q,a⟩ → Asks fair own (next a)) : Asks fair own (query q >>= next) := by
  intro s play ending goes fairly x member
  obtain ⟨a,tail,rfl,then'⟩ := plays_query.mp goes
  obtain ⟨first,others⟩ := List.forall_mem_cons.mp fairly
  obtain rfl | later := List.mem_cons.mp member
  · exact mine
  · exact rest a first s tail ending then' others x later

theorem asks_bind {first : Task Q A σ ε β} {next : β → Task Q A σ ε α} (one : Asks fair own first)
    (two : ∀ value, Asks fair own (next value)) : Asks fair own (first >>= next) := by
  intro s play ending goes fairly x member
  obtain ⟨head,middle,tail,rfl,begun,rest⟩ := plays_then.mp goes
  obtain ⟨fair1,fair2⟩ := List.forall_mem_append.mp fairly
  obtain before | later := List.mem_append.mp member
  · exact one s head middle begun fair1 x before
  · cases middle with
    | done value after => exact two value after tail ending rest fair2 x later
    | stopped why =>
      obtain ⟨rfl,_⟩ := plays_ret.mp rest
      exact absurd later List.not_mem_nil

end Asked

end Unixprog.Plays
