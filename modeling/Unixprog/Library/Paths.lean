import Mathlib.Data.List.Infix
import Mathlib.Logic.Function.Basic

/-! A tree of files, directories and symbolic links, and where a path leads in it. -/
namespace Unixprog.Paths

abbrev Name := List Char

/-- The names from an entry up to the root. -/
abbrev Place := List Name

inductive Kind
  | file
  | dir
  | link (target : List Char)
deriving DecidableEq

structure Node where
  ino : Nat
  kind : Kind
deriving DecidableEq

def Proper (name : Name) : Prop := name ≠ [] ∧ name ≠ ['.'] ∧ name ≠ ['.','.'] ∧ '/' ∉ name

/-- A file may have several places. -/
structure Tree where
  node : Place → Option Node
  root : ∃ ino, node [] = some ⟨ino,.dir⟩
  inside : ∀ name place n, node (name::place) = some n → ∃ ino, node place = some ⟨ino,.dir⟩
  proper : ∀ name place n, node (name::place) = some n → Proper name
  kinds : ∀ p q m n, node p = some m → node q = some n → m.ino = n.ino → m.kind = n.kind

/-- `place`, or a removed directory that many levels below it. -/
structure Position where
  below : Nat
  place : Place
deriving DecidableEq

def Position.up : Position → Position
  | ⟨0,place⟩ => ⟨0,place.tail⟩
  | ⟨below+1,place⟩ => ⟨below,place⟩

def names (path : List Char) : List Name := (path.splitOn '/').filter (· ≠ [])

def slashed (path : List Char) : Bool := path.getLast? = some '/'

/-- A slash at the end asks for a directory. -/
def words (path : List Char) : List Name := names path ++ if slashed path then [['.']] else []

def absolute (path : List Char) : Bool := path.head? = some '/'

def Position.origin (here : Position) (path : List Char) : Position := if absolute path then ⟨0,[]⟩ else here

/-- Where a path leads: to what exists, or to an entry that its directory does not have. -/
inductive Found
  | there (pos : Position)
  | missing (place : Place)
deriving DecidableEq

def Found.pos : Found → Position
  | .there pos => pos
  | .missing place => ⟨0,place⟩

def Tree.isDir (t : Tree) (here : Position) : Bool :=
  here.below ≠ 0 || (t.node here.place).map Node.kind = some .dir

def Tree.child (t : Tree) (here : Position) (name : Name) : Option Node :=
  if here.below = 0 then t.node (name::here.place) else none

/-- From `here` on, up to the next link, which is left to `follow`; if `keep`, a link at the end is
not followed. -/
def Tree.advance (t : Tree) (keep : Bool) (follow : Position → List Char → List Name → Option Found) :
    Position → List Name → Option Found
  | here,[] => some (.there here)
  | here,name::rest =>
    if t.isDir here then
      if name = ['.'] then t.advance keep follow here rest
      else if name = ['.','.'] then t.advance keep follow here.up rest
      else match t.child here name with
        | none => if rest = [] ∧ here.below = 0 then some (.missing (name::here.place)) else none
        | some ⟨_,.link target⟩ =>
          if keep = true ∧ rest = [] then some (.there ⟨0,name::here.place⟩) else follow here target rest
        | some _ => t.advance keep follow ⟨0,name::here.place⟩ rest
    else none

/-- The same through so many links. -/
def Tree.walk (t : Tree) (keep : Bool) : Nat → Position → List Name → Option Found
  | 0 => t.advance keep fun _ _ _ => none
  | links+1 => t.advance keep fun here target rest =>
    if target = [] then none else t.walk keep links (here.origin target) (words target ++ rest)

def MAXSYMLINKS : Nat := 40

def Tree.find (t : Tree) (keep : Bool) (here : Position) (path : List Char) : Option Found :=
  if path = [] then none else t.walk keep MAXSYMLINKS (here.origin path) (words path)

def spell : Place → List Char
  | [] => []
  | name::place => spell place ++ '/'::name

/-- The absolute path of a place without links, as realpath writes it. -/
def render (place : Place) : List Char := if place = [] then ['/'] else spell place

/-! How a tree changes. -/

structure Creatable (t : Tree) (name : Name) (place : Place) : Prop where
  proper : Proper name
  absent : t.node (name::place) = none
  inside : ∃ ino, t.node place = some ⟨ino,.dir⟩

theorem no_children (t : Tree) {place : Place} (absent : t.node place = none) (name : Name) : t.node (name::place) = none := by
  cases found : t.node (name::place) with
  | none => rfl
  | some n =>
    obtain ⟨ino,dir⟩ := t.inside name place n found
    rw [absent] at dir
    cases dir

def Tree.create (t : Tree) {name : Name} {place : Place} (room : Creatable t name place) {ino : Nat}
    (fresh : ∀ p n, t.node p = some n → n.ino ≠ ino) : Tree where
  node := Function.update t.node (name::place) (some ⟨ino,.file⟩)
  root := by
    rw [Function.update_of_ne (by simp)]
    exact t.root
  inside := by
    intro name' place' n found
    have above : place' ≠ name::place := by
      rintro rfl
      rw [Function.update_of_ne (by simp),no_children t room.absent] at found
      cases found
    rw [Function.update_of_ne above]
    by_cases here : name'::place' = name::place
    · cases here
      exact room.inside
    · rw [Function.update_of_ne here] at found
      exact t.inside name' place' n found
  proper := by
    intro name' place' n found
    by_cases here : name'::place' = name::place
    · cases here
      exact room.proper
    · rw [Function.update_of_ne here] at found
      exact t.proper name' place' n found
  kinds := by
    have one {p : Place} {n : Node} (found : Function.update t.node (name::place) (some ⟨ino,.file⟩) p = some n) :
        n = ⟨ino,.file⟩ ∨ t.node p = some n := by
      by_cases here : p = name::place
      · subst here
        rw [Function.update_self] at found
        exact .inl (Option.some.inj found).symm
      · rw [Function.update_of_ne here] at found
        exact .inr found
    intro p q m n first second same
    obtain rfl | first := one first <;> obtain rfl | second := one second
    · rfl
    · exact absurd same.symm (fresh q n second)
    · exact absurd same (fresh p m first)
    · exact t.kinds p q m n first second same

structure Removable (t : Tree) (place : Place) : Prop where
  below : place ≠ []
  bare : ∀ name, t.node (name::place) = none

def Tree.remove (t : Tree) {place : Place} (gone : Removable t place) : Tree where
  node := Function.update t.node place none
  root := by
    rw [Function.update_of_ne gone.below.symm]
    exact t.root
  inside := by
    intro name' place' n found
    have above : place' ≠ place := by
      rintro rfl
      rw [Function.update_of_ne (by simp),gone.bare] at found
      cases found
    rw [Function.update_of_ne above]
    by_cases here : name'::place' = place
    · subst here
      rw [Function.update_self] at found
      cases found
    · rw [Function.update_of_ne here] at found
      exact t.inside name' place' n found
  proper := by
    intro name' place' n found
    by_cases here : name'::place' = place
    · subst here
      rw [Function.update_self] at found
      cases found
    · rw [Function.update_of_ne here] at found
      exact t.proper name' place' n found
  kinds := by
    have one {p : Place} {n : Node} (found : Function.update t.node place none p = some n) : t.node p = some n := by
      by_cases here : p = place
      · subst here
        rw [Function.update_self] at found
        cases found
      · rwa [Function.update_of_ne here] at found
    exact fun p q m n first second same => t.kinds p q m n (one first) (one second) same

/-- The way down from `top` to a place below it. -/
def under (top place : Place) : Option Place :=
  if top <:+ place then some (place.take (place.length-top.length)) else none

theorem under_iff {top place rest : Place} : under top place = some rest ↔ place = rest ++ top := by
  unfold under
  constructor
  · intro found
    split_ifs at found with below
    obtain ⟨front,rfl⟩ := below
    rw [List.length_append,Nat.add_sub_cancel,List.take_left] at found
    rw [Option.some.inj found]
  · rintro rfl
    rw [if_pos (List.suffix_append _ _),List.length_append,Nat.add_sub_cancel,List.take_left]

theorem under_none {top place : Place} : under top place = none ↔ ¬ top <:+ place := by
  unfold under
  split_ifs with below <;> simp [below]

structure Movable (t : Tree) (old : Place) (name : Name) (place : Place) : Prop where
  source : ∃ n, t.node old = some n
  below : old ≠ []
  proper : Proper name
  inside : ∃ ino, t.node place = some ⟨ino,.dir⟩
  apart : ¬ old <:+ name::place
  bare : ∀ other, t.node (other::name::place) = none

/-- What was below `old` is below `new`. -/
def Tree.moved (t : Tree) (old new place : Place) : Option Node :=
  match under new place with
  | some rest => t.node (rest ++ old)
  | none => if old <:+ place then none else t.node place

section Moves
variable {t : Tree} {old place : Place} {name : Name}

theorem moved_below (new rest : Place) : t.moved old new (rest ++ new) = t.node (rest ++ old) := by
  rw [Tree.moved,under_iff.mpr rfl]

theorem moved_other {new place : Place} (new' : ¬ new <:+ place) (old' : ¬ old <:+ place) :
    t.moved old new place = t.node place := by
  rw [Tree.moved,under_none.mpr new']
  exact if_neg old'

theorem moved_some {new place : Place} {n : Node} (found : t.moved old new place = some n) :
    (∃ rest, place = rest ++ new ∧ t.node (rest ++ old) = some n) ∨
      ¬ new <:+ place ∧ ¬ old <:+ place ∧ t.node place = some n := by
  unfold Tree.moved at found
  cases way : under new place with
  | some rest =>
    rw [way] at found
    exact .inl ⟨rest,under_iff.mp way,found⟩
  | none =>
    rw [way] at found
    split_ifs at found with below
    exact .inr ⟨under_none.mp way,below,found⟩

theorem Movable.place_kept (free : Movable t old name place) : t.moved old (name::place) place = t.node place := by
  refine moved_other (fun long => ?_) fun below => free.apart (below.trans (List.suffix_cons _ _))
  exact absurd long.length_le (by simp)

def Tree.move (t : Tree) {old : Place} {name : Name} {place : Place} (free : Movable t old name place) : Tree where
  node := t.moved old (name::place)
  root := by
    rw [moved_other (by simp) (by simpa using free.below)]
    exact t.root
  inside := by
    intro other p n found
    obtain ⟨rest,split,below⟩ | ⟨new',old',kept⟩ := moved_some found
    · cases rest with
      | nil =>
        obtain ⟨rfl,rfl⟩ := List.cons.inj split
        rw [free.place_kept]
        exact free.inside
      | cons first rest =>
        rw [List.cons_append] at split
        obtain ⟨rfl,rfl⟩ := List.cons.inj split
        rw [moved_below]
        exact t.inside _ _ n below
    · rw [moved_other (fun down => new' (down.trans (List.suffix_cons _ _)))
        fun down => old' (down.trans (List.suffix_cons _ _))]
      exact t.inside other p n kept
  proper := by
    intro other p n found
    obtain ⟨rest,split,below⟩ | ⟨_,_,kept⟩ := moved_some found
    · cases rest with
      | nil =>
        obtain ⟨rfl,rfl⟩ := List.cons.inj split
        exact free.proper
      | cons first rest =>
        obtain ⟨rfl,rfl⟩ := List.cons.inj split
        exact t.proper _ _ n below
    · exact t.proper other p n kept
  kinds := by
    have one {p : Place} {n : Node} (found : t.moved old (name::place) p = some n) : ∃ q, t.node q = some n := by
      obtain ⟨rest,_,below⟩ | ⟨_,_,kept⟩ := moved_some found
      · exact ⟨_,below⟩
      · exact ⟨_,kept⟩
    intro p q m n first second same
    obtain ⟨p',first⟩ := one first
    obtain ⟨q',second⟩ := one second
    exact t.kinds p' q' m n first second same

end Moves

/-! Where a position is after a change. -/

def Position.afterRemove (here : Position) (place : Place) : Position :=
  if here.place = place then ⟨here.below+1,place.tail⟩ else here

def Position.afterMove (here : Position) (old new : Place) : Position :=
  match under old here.place with
  | some rest => ⟨here.below,rest ++ new⟩
  | none => here.afterRemove new

/-- A position is in a directory or below one that it was removed from. -/
def Tree.Stands (t : Tree) (here : Position) : Prop := ∃ ino, t.node here.place = some ⟨ino,.dir⟩

theorem ancestor_some (t : Tree) {rest place : Place} {n : Node} (found : t.node (rest ++ place) = some n) :
    ∃ m, t.node place = some m := by
  induction rest generalizing n with
  | nil => exact ⟨n,found⟩
  | cons name rest ih =>
    obtain ⟨ino,above⟩ := t.inside _ _ n found
    exact ih above

theorem ancestor_dir (t : Tree) {rest place : Place} {name : Name} {n : Node}
    (found : t.node (rest ++ name::place) = some n) : ∃ ino, t.node place = some ⟨ino,.dir⟩ := by
  obtain ⟨m,above⟩ := ancestor_some t found
  exact t.inside _ _ m above

/-- Where no directory is, nothing is below. -/
theorem apart_below (t : Tree) {top place : Place} {n : Node} (file : ∀ m, t.node top = some m → m.kind = .file)
    (found : t.node place = some n) (other : n.kind ≠ .file) : ¬ top <:+ place := by
  rintro ⟨rest,rfl⟩
  obtain rfl | ⟨front,last,rfl⟩ := List.eq_nil_or_concat rest
  · exact other (file n found)
  · rw [List.concat_eq_append,List.append_assoc,List.singleton_append] at found
    obtain ⟨ino,dir⟩ := ancestor_dir t found
    cases file _ dir

theorem create_stands {t : Tree} {name : Name} {place : Place} (room : Creatable t name place) {ino : Nat}
    (fresh : ∀ p n, t.node p = some n → n.ino ≠ ino) {here : Position} (stands : t.Stands here) :
    (t.create room fresh).Stands here := by
  obtain ⟨ino',dir⟩ := stands
  refine ⟨ino',(Function.update_of_ne ?_ _ _).trans dir⟩
  intro same
  rw [same,room.absent] at dir
  cases dir

theorem remove_stands {t : Tree} {place : Place} (gone : Removable t place) {here : Position} (stands : t.Stands here) :
    (t.remove gone).Stands (here.afterRemove place) := by
  obtain ⟨ino,dir⟩ := stands
  unfold Position.afterRemove
  split
  next removed =>
    obtain ⟨name,above,rfl⟩ := List.exists_cons_of_ne_nil gone.below
    rw [removed] at dir
    obtain ⟨ino',above'⟩ := t.inside name above _ dir
    exact ⟨ino',(Function.update_of_ne (by simp) _ _).trans above'⟩
  next other => exact ⟨ino,(Function.update_of_ne other _ _).trans dir⟩

theorem move_stands {t : Tree} {old place : Place} {name : Name} (free : Movable t old name place) {here : Position}
    (stands : t.Stands here) : (t.move free).Stands (here.afterMove old (name::place)) := by
  obtain ⟨ino,dir⟩ := stands
  unfold Position.afterMove
  cases way : under old here.place with
  | some rest =>
    refine ⟨ino,(moved_below _ rest).trans ?_⟩
    rw [← under_iff.mp way]
    exact dir
  | none =>
    dsimp only [Position.afterRemove]
    split
    next replaced =>
      obtain ⟨ino',above⟩ := free.inside
      exact ⟨ino',free.place_kept.trans above⟩
    next other =>
      refine ⟨ino,(moved_other ?_ (under_none.mp way)).trans dir⟩
      rintro ⟨rest,split⟩
      obtain rfl | ⟨front,last,rfl⟩ := List.eq_nil_or_concat rest
      · exact other split.symm
      · rw [← split,List.concat_eq_append,List.append_assoc,List.singleton_append] at dir
        obtain ⟨m,child⟩ := ancestor_some t dir
        rw [free.bare last] at child
        cases child

/-! The walk as a relation. -/

/-- From `here` the words lead to `f` through at most so many links. -/
inductive Leads (t : Tree) (keep : Bool) : Nat → Position → List Name → Found → Prop
  | done (links : Nat) (here : Position) : Leads t keep links here [] (.there here)
  | dot {links : Nat} {here : Position} {rest : List Name} {f : Found} (dir : t.isDir here = true)
      (goes : Leads t keep links here rest f) : Leads t keep links here (['.']::rest) f
  | up {links : Nat} {here : Position} {rest : List Name} {f : Found} (dir : t.isDir here = true)
      (goes : Leads t keep links here.up rest f) : Leads t keep links here (['.','.']::rest) f
  | missing {links : Nat} {here : Position} {name : Name} (dir : t.isDir here = true) (plain : name ≠ ['.'])
      (plain' : name ≠ ['.','.']) (alive : here.below = 0) (absent : t.child here name = none) :
      Leads t keep links here [name] (.missing (name::here.place))
  | kept {links : Nat} {here : Position} {name : Name} {ino : Nat} {target : List Char} (dir : t.isDir here = true)
      (plain : name ≠ ['.']) (plain' : name ≠ ['.','.']) (found : t.child here name = some ⟨ino,.link target⟩)
      (keeps : keep = true) : Leads t keep links here [name] (.there ⟨0,name::here.place⟩)
  | link {links : Nat} {here : Position} {name : Name} {rest : List Name} {ino : Nat} {target : List Char} {f : Found}
      (dir : t.isDir here = true) (plain : name ≠ ['.']) (plain' : name ≠ ['.','.'])
      (found : t.child here name = some ⟨ino,.link target⟩) (follows : keep = true → rest ≠ []) (filled : target ≠ [])
      (goes : Leads t keep links (here.origin target) (words target ++ rest) f) :
      Leads t keep (links+1) here (name::rest) f
  | step {links : Nat} {here : Position} {name : Name} {rest : List Name} {n : Node} {f : Found}
      (dir : t.isDir here = true) (plain : name ≠ ['.']) (plain' : name ≠ ['.','.'])
      (found : t.child here name = some n) (solid : ∀ target, n.kind ≠ .link target)
      (goes : Leads t keep links ⟨0,name::here.place⟩ rest f) : Leads t keep links here (name::rest) f

/-- What is left to a link with so many links to go. -/
def Tree.follow (t : Tree) (keep : Bool) : Nat → Position → List Char → List Name → Option Found
  | 0,_,_,_ => none
  | links+1,here,target,rest => if target = [] then none else t.walk keep links (here.origin target) (words target ++ rest)

theorem walk_advance (t : Tree) (keep : Bool) (links : Nat) : t.walk keep links = t.advance keep (t.follow keep links) := by
  cases links <;> rfl

theorem leads_walk {t : Tree} {keep : Bool} {links : Nat} {here : Position} {ws : List Name} {f : Found}
    (leads : Leads t keep links here ws f) : t.walk keep links here ws = some f := by
  induction leads with
  | done links here => rw [walk_advance,Tree.advance]
  | dot dir goes ih => rw [walk_advance,Tree.advance,if_pos dir,if_pos rfl,← walk_advance,ih]
  | up dir goes ih => rw [walk_advance,Tree.advance,if_pos dir,if_neg (by decide),if_pos rfl,← walk_advance,ih]
  | missing dir plain plain' alive absent =>
    rw [walk_advance,Tree.advance,if_pos dir,if_neg plain,if_neg plain',absent]
    exact if_pos ⟨rfl,alive⟩
  | kept dir plain plain' found keeps =>
    rw [walk_advance,Tree.advance,if_pos dir,if_neg plain,if_neg plain',found]
    exact if_pos ⟨keeps,rfl⟩
  | link dir plain plain' found follows filled goes ih =>
    rw [walk_advance,Tree.advance,if_pos dir,if_neg plain,if_neg plain',found]
    refine (if_neg fun ends => follows ends.1 ends.2).trans ?_
    rw [Tree.follow,if_neg filled,ih]
  | @step links here name rest n f dir plain plain' found solid goes ih =>
    rw [walk_advance,Tree.advance,if_pos dir,if_neg plain,if_neg plain',found]
    obtain ⟨ino,kind⟩ := n
    cases kind with
    | link target => exact absurd rfl (solid target)
    | file => rw [← ih,walk_advance]
    | dir => rw [← ih,walk_advance]

theorem advance_leads {t : Tree} {keep : Bool} {links : Nat}
    (linked : ∀ here ino name target rest, t.isDir here = true → name ≠ ['.'] → name ≠ ['.','.'] →
      t.child here name = some ⟨ino,.link target⟩ → (keep = true → rest ≠ []) →
      ∀ f, t.follow keep links here target rest = some f → Leads t keep links here (name::rest) f)
    {here : Position} {ws : List Name} {f : Found} (goes : t.advance keep (t.follow keep links) here ws = some f) :
    Leads t keep links here ws f := by
  induction ws generalizing here with
  | nil =>
    cases goes
    exact .done links here
  | cons name rest ih =>
    rw [Tree.advance] at goes
    by_cases dir : t.isDir here = true
    case neg =>
      rw [if_neg dir] at goes
      cases goes
    rw [if_pos dir] at goes
    by_cases plain : name = ['.']
    · subst plain
      exact .dot dir (ih goes)
    rw [if_neg plain] at goes
    by_cases plain' : name = ['.','.']
    · subst plain'
      exact .up dir (ih goes)
    rw [if_neg plain'] at goes
    cases found : t.child here name with
    | none =>
      rw [found] at goes
      dsimp only at goes
      split_ifs at goes with ends
      cases goes
      rw [ends.1]
      exact .missing dir plain plain' ends.2 found
    | some n =>
      obtain ⟨ino,kind⟩ := n
      rw [found] at goes
      cases kind with
      | file => exact .step dir plain plain' found (by simp) (ih goes)
      | dir => exact .step dir plain plain' found (by simp) (ih goes)
      | link target =>
        dsimp only at goes
        split_ifs at goes with ends
        · cases goes
          rw [ends.2]
          exact .kept dir plain plain' found ends.1
        · exact linked here ino name target rest dir plain plain' found (fun keeps last => ends ⟨keeps,last⟩) f goes

theorem walk_leads {t : Tree} {keep : Bool} {links : Nat} {here : Position} {ws : List Name} {f : Found}
    (walks : t.walk keep links here ws = some f) : Leads t keep links here ws f := by
  induction links generalizing here ws f with
  | zero => exact advance_leads (by simp [Tree.follow]) (walk_advance t keep 0 ▸ walks)
  | succ links ih =>
    refine advance_leads ?_ (walk_advance t keep (links+1) ▸ walks)
    intro here ino name target rest dir plain plain' found follows f goes
    rw [Tree.follow] at goes
    split_ifs at goes with filled
    exact .link dir plain plain' found follows filled (ih goes)

/-! What a walk finds. -/

/-- A position on the way of a path: an existing entry that is no link, or a removed directory. -/
def Tree.Solid (t : Tree) (pos : Position) : Prop :=
  ∃ n, t.node pos.place = some n ∧ (∀ target, n.kind ≠ .link target) ∧ (pos.below ≠ 0 → n.kind = .dir)

variable {t : Tree} {keep : Bool} {links : Nat} {here : Position} {ws : List Name}

theorem Tree.Stands.solid (stands : t.Stands here) : t.Solid here := by
  obtain ⟨ino,dir⟩ := stands
  exact ⟨_,dir,by simp,fun _ => rfl⟩

theorem Tree.Solid.stands (solid : t.Solid here) (dir : t.isDir here = true) : t.Stands here := by
  obtain ⟨⟨ino,kind⟩,found,_,removed⟩ := solid
  have directory : kind = .dir := by
    rw [Tree.isDir,Bool.or_eq_true] at dir
    obtain below | alive := dir
    · exact removed (by simpa using below)
    · simpa [found] using alive
  exact ⟨ino,found.trans (by rw [directory])⟩

theorem Tree.Stands.up (stands : t.Stands here) : t.Stands here.up := by
  obtain ⟨ino,dir⟩ := stands
  match here,dir with
  | ⟨0,[]⟩,_ => exact t.root
  | ⟨0,name::place⟩,dir => exact t.inside name place _ dir
  | ⟨below+1,place⟩,dir => exact ⟨ino,dir⟩

theorem Tree.Stands.origin (stands : t.Stands here) (path : List Char) : t.Stands (here.origin path) := by
  unfold Position.origin
  split
  · exact t.root
  · exact stands

theorem child_solid {name : Name} {n : Node} (found : t.child here name = some n)
    (solid : ∀ target, n.kind ≠ .link target) : t.Solid ⟨0,name::here.place⟩ := by
  unfold Tree.child at found
  split_ifs at found
  exact ⟨n,found,solid,fun never => absurd rfl never⟩

/-- A walk comes to an existing entry, which is a link only if it keeps links. -/
theorem Leads.lands {pos : Position} (leads : Leads t keep links here ws (.there pos)) (solid : t.Solid here) :
    t.Solid pos ∨ keep = true ∧ ∃ ino target, pos.below = 0 ∧ t.node pos.place = some ⟨ino,.link target⟩ := by
  generalize ends : Found.there pos = f at leads
  induction leads with
  | done links here =>
    cases ends
    exact .inl solid
  | dot dir goes ih => exact ih solid ends
  | up dir goes ih => exact ih (solid.stands dir).up.solid ends
  | missing => cases ends
  | kept dir plain plain' found keeps =>
    cases ends
    unfold Tree.child at found
    split_ifs at found
    exact .inr ⟨keeps,_,_,rfl,found⟩
  | link dir plain plain' found follows filled goes ih => exact ih ((solid.stands dir).origin _).solid ends
  | step dir plain plain' found solid' goes ih => exact ih (child_solid found solid') ends

/-- The link at the end apart, walks that keep it and walks that follow it come to the same. -/
theorem Leads.followed {f : Found} (leads : Leads t true links here ws f)
    (solid : ∀ ino target, t.node f.pos.place ≠ some ⟨ino,.link target⟩) : Leads t false links here ws f := by
  induction leads with
  | done links here => exact .done links here
  | dot dir goes ih => exact .dot dir (ih solid)
  | up dir goes ih => exact .up dir (ih solid)
  | missing dir plain plain' alive absent => exact .missing dir plain plain' alive absent
  | kept dir plain plain' found keeps =>
    unfold Tree.child at found
    split_ifs at found
    exact absurd found (solid _ _)
  | link dir plain plain' found follows filled goes ih =>
    exact .link dir plain plain' found (fun never => by cases never) filled (ih solid)
  | step dir plain plain' found solid' goes ih => exact .step dir plain plain' found solid' (ih solid)

theorem Leads.stays {f : Found} (leads : Leads t keep links here ws f) (other : t.isDir here = false) :
    ws = [] ∧ f = .there here := by
  cases leads with
  | done => exact ⟨rfl,rfl⟩
  | dot dir | up dir | missing dir | kept dir | link dir | step dir =>
    rw [other] at dir
    cases dir

/-- In a tree with the same directories and links, where the end of the walk has come to be something
solid, the walk comes to that. -/
theorem Leads.kept_up {t' : Tree} {f : Found} (leads : Leads t keep links here ws f)
    (same : ∀ p n, t.node p = some n → n.kind ≠ .file → t'.node p = some n) {n : Node}
    (found : t'.node f.pos.place = some n) (solid : ∀ target, n.kind ≠ .link target) :
    Leads t' keep links here ws (.there f.pos) := by
  have directory {here : Position} (dir : t.isDir here = true) : t'.isDir here = true := by
    rw [Tree.isDir,Bool.or_eq_true] at dir ⊢
    refine dir.imp_right fun alive => ?_
    cases here' : t.node here.place with
    | none => simp [here'] at alive
    | some m =>
      have kind : m.kind = .dir := by simpa [here'] using alive
      simp [same _ _ here' (by rw [kind]; decide),kind]
  have child {here : Position} {name : Name} {m : Node} (there : t.child here name = some m) (kind : m.kind ≠ .file) :
      t'.child here name = some m := by
    unfold Tree.child at there ⊢
    split_ifs at there ⊢
    exact same _ _ there kind
  induction leads with
  | done links here => exact .done links here
  | dot dir goes ih => exact .dot (directory dir) (ih found)
  | up dir goes ih => exact .up (directory dir) (ih found)
  | missing dir plain plain' alive absent =>
    refine .step (directory dir) plain plain' ?_ solid (.done _ _)
    unfold Tree.child
    rw [if_pos alive]
    exact found
  | kept dir plain plain' there keeps =>
    have link := child there (by simp)
    unfold Tree.child at link
    split_ifs at link
    cases found.symm.trans link
    exact absurd rfl (solid _)
  | link dir plain plain' there follows filled goes ih =>
    exact .link (directory dir) plain plain' (child there (by simp)) follows filled (ih found)
  | @step links here name rest m f dir plain plain' there solid' goes ih =>
    by_cases kind : m.kind = .file
    · have alive : here.below = 0 ∧ t.node (name::here.place) = some m := by
        unfold Tree.child at there
        split_ifs at there with alive
        exact ⟨alive,there⟩
      obtain ⟨rfl,rfl⟩ := goes.stays (by simp [Tree.isDir,alive.2,kind])
      refine .step (directory dir) plain plain' ?_ solid (.done _ _)
      unfold Tree.child
      rw [if_pos alive.1]
      exact found
    · exact .step (directory dir) plain plain' (child there kind) solid' (ih found)

theorem Leads.slash {pos : Position} (leads : Leads t false links here ws (.there pos)) (dir : t.isDir pos = true) :
    Leads t false links here (ws ++ [['.']]) (.there pos) := by
  generalize ends : Found.there pos = f at leads
  induction leads with
  | done links here =>
    cases ends
    exact .dot dir (.done _ _)
  | dot dir' goes ih => exact .dot dir' (ih ends)
  | up dir' goes ih => exact .up dir' (ih ends)
  | missing => cases ends
  | kept dir' plain plain' found keeps => cases keeps
  | link dir' plain plain' found follows filled goes ih =>
    exact .link dir' plain plain' found (fun never => by cases never) filled
      (List.append_assoc _ _ [['.']] ▸ ih ends)
  | step dir' plain plain' found solid goes ih => exact .step dir' plain plain' found solid (ih ends)

/-- What is found from a place in the tree is in the tree. -/
theorem Leads.alive {f : Found} (leads : Leads t keep links here ws f) (start : here.below = 0) : f.pos.below = 0 := by
  induction leads with
  | done => exact start
  | dot dir goes ih => exact ih start
  | @up links here rest f dir goes ih =>
    obtain ⟨below,place⟩ := here
    cases start
    exact ih rfl
  | missing => rfl
  | kept => rfl
  | @link links here name rest ino target f dir plain plain' found follows filled goes ih =>
    refine ih ?_
    unfold Position.origin
    split
    · rfl
    · exact start
  | step dir plain plain' found solid goes ih => exact ih rfl

/-- The names lead from a directory down to what is below it. -/
theorem leads_down {base : Place} {n : Node} (found : t.node (ws.reverse ++ base) = some n)
    (ends : keep = true ∨ ∀ target, n.kind ≠ .link target) :
    Leads t keep links ⟨0,base⟩ ws (.there ⟨0,ws.reverse ++ base⟩) := by
  induction ws generalizing base with
  | nil => exact .done _ _
  | cons name rest ih =>
    rw [List.reverse_cons,List.append_assoc,List.singleton_append] at found ⊢
    obtain ⟨m,child⟩ := ancestor_some t found
    obtain ⟨ino,dir⟩ := t.inside _ _ m child
    obtain ⟨_,plain,plain',_⟩ := t.proper _ _ m child
    have directory : t.isDir ⟨0,base⟩ = true := by simp [Tree.isDir,dir]
    by_cases solid : ∀ target, m.kind ≠ .link target
    · exact .step directory plain plain' child solid (ih found)
    · obtain ⟨target,link⟩ := not_forall_not.mp solid
      cases rest with
      | nil =>
        obtain ⟨ino',kind⟩ := m
        obtain rfl : kind = .link target := link
        cases found.symm.trans child
        exact .kept directory plain plain' child (ends.resolve_right fun never => never _ rfl)
      | cons first others =>
        rw [List.reverse_cons,List.append_assoc,List.singleton_append] at found
        obtain ⟨ino',above⟩ := ancestor_dir t found
        cases child.symm.trans above
        cases link

/-! Paths of places. -/

theorem names_spell {place : Place} (plain : ∀ name ∈ place, Proper name) : names (spell place) = place.reverse := by
  induction place with
  | nil => rfl
  | cons name place ih =>
    obtain ⟨⟨filled,_,_,whole⟩,others⟩ := List.forall_mem_cons.mp plain
    rw [names,spell,List.splitOn_append_cons_self,List.splitOn_eq_singleton whole,List.filter_append,List.reverse_cons,
      ← ih others,names]
    simp [filled]

theorem slashed_spell {name : Name} (plain : Proper name) (place : Place) : slashed (spell (name::place)) = false := by
  obtain ⟨filled,_,_,whole⟩ := plain
  obtain ⟨front,last,rfl⟩ := (List.eq_nil_or_concat name).resolve_left filled
  have other : last ≠ '/' := by
    rintro rfl
    exact whole (by simp)
  rw [slashed,spell,List.concat_eq_append,← List.cons_append,← List.append_assoc,List.getLast?_concat]
  simp [other]

theorem names_proper {place : Place} {n : Node} (found : t.node place = some n) : ∀ name ∈ place, Proper name := by
  induction place generalizing n with
  | nil => exact fun name member => absurd member List.not_mem_nil
  | cons name place ih =>
    obtain ⟨ino,above⟩ := t.inside _ _ n found
    exact List.forall_mem_cons.mpr ⟨t.proper _ _ n found,ih above⟩

theorem render_absolute (place : Place) : absolute (render place) = true := by
  unfold render absolute
  split
  · rfl
  · have head (place : Place) (filled : place ≠ []) : (spell place).head? = some '/' := by
      induction place with
      | nil => exact absurd rfl filled
      | cons name place ih =>
        cases place with
        | nil => rfl
        | cons other place => rw [spell,List.head?_append,ih (by simp)]; rfl
    simpa using head place ‹_›

/-- The absolute path of a place leads to it. -/
theorem find_render {place : Place} {n : Node} (found : t.node place = some n) (here : Position) :
    t.find true here (render place) = some (.there ⟨0,place⟩) := by
  have start : here.origin (render place) = ⟨0,[]⟩ := by rw [Position.origin,if_pos (render_absolute place)]
  have filled : render place ≠ [] := by
    intro empty
    have head := render_absolute place
    rw [empty] at head
    cases head
  rw [Tree.find,if_neg filled,start]
  apply leads_walk
  cases place with
  | nil => exact .dot (by obtain ⟨ino,dir⟩ := t.root; simp [Tree.isDir,dir]) (.done _ _)
  | cons name place =>
    have plain := names_proper found
    rw [words,render,if_neg (List.cons_ne_nil _ _),slashed_spell (plain name List.mem_cons_self) place,
      names_spell plain]
    have leads : Leads t true MAXSYMLINKS ⟨0,[]⟩ (name::place).reverse (.there ⟨0,(name::place).reverse.reverse ++ []⟩) :=
      leads_down (by simpa using found) (.inl rfl)
    simpa using leads

end Unixprog.Paths
