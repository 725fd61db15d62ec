import Unixprog.Library.Plays

/-! Conditions that look back: what a task may ask depends on the history, that is on
all that was asked and answered before. -/
namespace Unixprog.Plays

variable {Q : Type} {A : Q → Type} {α β σ ε : Type}

abbrev History (A : Q → Type) := List (Sigma A)

/-- After the history, every query of the play is allowed at its turn. -/
def Lawful (allowed : History A → Q → Prop) (history : History A) (play : List (Sigma A)) : Prop :=
  ∀ before x after, play = before ++ x::after → allowed (history ++ before) x.1

/-- From a history and a state that satisfy `pre` every play is lawful, and where it ends
with a value `post` holds. -/
def Minds (allowed : History A → Q → Prop) (pre : History A → σ → Prop) (p : Task Q A σ ε α)
    (post : α → History A → σ → Prop) : Prop :=
  ∀ history s, pre history s → ∀ play ending, Played (p.run s) play ending →
    Lawful allowed history play ∧ ∀ value after, ending = .done value after → post value (history ++ play) after

variable {allowed : History A → Q → Prop} {pre : History A → σ → Prop} {post : α → History A → σ → Prop}

theorem lawful_nil (history : History A) : Lawful allowed history [] := by
  intro before x after split
  exact absurd split.symm (List.append_ne_nil_of_right_ne_nil _ (List.cons_ne_nil _ _))

theorem lawful_append {history first second : List (Sigma A)} :
    Lawful allowed history (first ++ second) ↔ Lawful allowed history first ∧ Lawful allowed (history ++ first) second := by
  constructor
  · intro lawful
    refine ⟨fun before x after split => lawful before x (after ++ second) ?_,fun before x after split => ?_⟩
    · rw [split,List.append_assoc,List.cons_append]
    · rw [List.append_assoc]
      refine lawful (first ++ before) x after ?_
      rw [split,List.append_assoc]
  · rintro ⟨one,two⟩ before x after split
    obtain ⟨between,rfl,later⟩ | ⟨between,rfl,later⟩ := List.append_eq_append_iff.mp split
    · have lawful := two between x after later
      rwa [List.append_assoc] at lawful
    · cases between with
      | nil =>
        have lawful := two [] x after (by simpa using later.symm)
        simpa using lawful
      | cons y between =>
        obtain ⟨rfl,_⟩ := List.cons.inj later
        exact one before x between rfl

theorem lawful_cons {history rest : List (Sigma A)} {x : Sigma A} :
    Lawful allowed history (x::rest) ↔ allowed history x.1 ∧ Lawful allowed (history ++ [x]) rest := by
  rw [← List.singleton_append,lawful_append]
  refine and_congr_left' ⟨fun lawful => ?_,fun allows => ?_⟩
  · have first := lawful [] x [] rfl
    rwa [List.append_nil] at first
  · rintro before y after split
    obtain ⟨rfl,rfl,rfl⟩ : before = [] ∧ x = y ∧ after = [] := by
      cases before with
      | nil =>
        obtain ⟨rfl,rest⟩ := List.cons.inj split
        exact ⟨rfl,rfl,rest.symm⟩
      | cons z before => simp at split
    rwa [List.append_nil]

theorem Minds.weaken {stronger : History A → σ → Prop} {weaker : α → History A → σ → Prop} {p : Task Q A σ ε α}
    (minds : Minds allowed pre p post) (before : ∀ history s, stronger history s → pre history s)
    (after : ∀ value history s, post value history s → weaker value history s) : Minds allowed stronger p weaker := by
  intro history s holds play ending goes
  obtain ⟨lawful,ends⟩ := minds history s (before history s holds) play ending goes
  exact ⟨lawful,fun value t same => after value _ t (ends value t same)⟩

theorem minds_pure (value : α) (holds : ∀ history s, pre history s → post value history s) :
    Minds allowed pre (pure value : Task Q A σ ε α) post := by
  intro history s before play ending goes
  obtain ⟨rfl,rfl⟩ := plays_ret.mp goes
  refine ⟨lawful_nil _,?_⟩
  rintro _ _ ⟨⟩
  rw [List.append_nil]
  exact holds history s before

theorem minds_stop (why : ε) : Minds allowed pre (stop why : Task Q A σ ε α) post := by
  intro history s before play ending goes
  obtain ⟨rfl,rfl⟩ := plays_ret.mp goes
  exact ⟨lawful_nil _,fun value after impossible => by cases impossible⟩

theorem minds_update {post : Unit → History A → σ → Prop} (f : σ → σ)
    (holds : ∀ history s, pre history s → post () history (f s)) :
    Minds allowed pre (update f : Task Q A σ ε Unit) post := by
  intro history s before play ending goes
  obtain ⟨rfl,rfl⟩ := plays_ret.mp goes
  refine ⟨lawful_nil _,?_⟩
  rintro _ _ ⟨⟩
  rw [List.append_nil]
  exact holds history s before

theorem minds_bind {middle : β → History A → σ → Prop} {first : Task Q A σ ε β} {next : β → Task Q A σ ε α}
    (one : Minds allowed pre first middle) (two : ∀ value, Minds allowed (middle value) (next value) post) :
    Minds allowed pre (first >>= next) post := by
  intro history s before play ending goes
  obtain ⟨head,between,tail,rfl,begun,rest⟩ := plays_then.mp goes
  obtain ⟨lawful,reached⟩ := one history s before head between begun
  cases between with
  | done value t =>
    obtain ⟨lawful',ends⟩ := two value _ t (reached value t rfl) tail ending rest
    refine ⟨lawful_append.mpr ⟨lawful,lawful'⟩,fun result after same => ?_⟩
    rw [← List.append_assoc]
    exact ends result after same
  | stopped why =>
    obtain ⟨rfl,rfl⟩ := plays_ret.mp rest
    rw [List.append_nil]
    exact ⟨lawful,fun value after impossible => by cases impossible⟩

/-- What a task does may be told for each state by another task. -/
theorem minds_cases {p : Task Q A σ ε α} (tells : σ → Task Q A σ ε α) (same : ∀ s, p.run s = (tells s).run s)
    (all : ∀ s, Minds allowed (fun history t => pre history t ∧ t = s) (tells s) post) : Minds allowed pre p post := by
  intro history s before
  rw [same s]
  exact all s history s ⟨before,rfl⟩

theorem minds_state {next : σ → Task Q A σ ε α}
    (rest : ∀ s, Minds allowed (fun history t => pre history t ∧ t = s) (next s) post) :
    Minds allowed pre (state >>= next) post := minds_cases next (fun _ => rfl) rest

theorem minds_ite (c : Prop) [Decidable c] {first second : Task Q A σ ε α} (one : c → Minds allowed pre first post)
    (two : ¬ c → Minds allowed pre second post) : Minds allowed pre (if c then first else second) post := by
  split
  next holds => exact one holds
  next fails => exact two fails

theorem minds_query (q : Q) {next : A q → Task Q A σ ε α} (allows : ∀ history s, pre history s → allowed history q)
    (rest : ∀ a, Minds allowed (fun history s => ∃ past, history = past ++ [⟨q,a⟩] ∧ pre past s) (next a) post) :
    Minds allowed pre (query q >>= next) post := by
  intro history s before play ending goes
  obtain ⟨a,tail,rfl,answered⟩ := plays_query.mp goes
  obtain ⟨lawful,ends⟩ := rest a (history ++ [⟨q,a⟩]) s ⟨history,rfl,before⟩ tail ending answered
  refine ⟨lawful_cons.mpr ⟨allows history s before,lawful⟩,fun value after same => ?_⟩
  have reached := ends value after same
  rwa [List.append_assoc] at reached

end Unixprog.Plays
