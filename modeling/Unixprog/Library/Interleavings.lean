import Mathlib.Data.Fintype.Basic
import Mathlib.Data.Finset.Dedup

/-! Interleavings of what several processes emit, one emission being atomic. Each
process emits blocks; a block is whole if nothing comes between its emissions. -/
namespace Unixprog.Interleavings

variable {ι α : Type}

/-- Each process finds its own emissions in the log, in its own order. -/
def Interleaves [DecidableEq ι] (emits : ι → List α) (log : List (ι × α)) : Prop :=
  ∀ p, (log.filter (·.1 = p)).map Prod.snd = emits p

def tagged : Nat → List (List α) → List (Nat × α)
  | _,[] => []
  | k,block::rest => block.map (k,·) ++ tagged (k+1) rest

def Whole (log : List (ι × Nat × α)) (p : ι) (k : Nat) (block : List α) : Prop :=
  ∃ before after, log = before ++ block.map (fun x => (p,k,x)) ++ after

theorem tagged_bound (start : Nat) (blocks : List (List α)) : ∀ x ∈ tagged start blocks, start ≤ x.1 := by
  induction blocks generalizing start with
  | nil => exact fun x member => absurd member List.not_mem_nil
  | cons block rest ih =>
    intro x member
    obtain here | later := List.mem_append.mp member
    · obtain ⟨y,_,rfl⟩ := List.mem_map.mp here
      exact Nat.le_refl start
    · exact Nat.le_of_succ_le (ih (start+1) x later)

theorem tagged_flatten (start : Nat) (blocks : List (List α)) :
    (tagged start blocks).map Prod.snd = blocks.flatten := by
  induction blocks generalizing start with
  | nil => rfl
  | cons block rest ih =>
    rw [tagged,List.map_append,ih,List.map_map,List.flatten_cons]
    exact congrArg (· ++ rest.flatten) (List.map_id block)

theorem tagged_silent (start : Nat) (blocks : List (List α)) : tagged start blocks = [] ↔ blocks.flatten = [] := by
  rw [← tagged_flatten start blocks,List.map_eq_nil_iff]

theorem tagged_split (start k : Nat) (blocks : List (List α)) (block : List α) (here : blocks[k]? = some block) :
    ∃ before after, tagged start blocks = before ++ block.map (start+k,·) ++ after ∧
      (∀ x ∈ before, x.1 ≠ start+k) ∧ ∀ x ∈ after, x.1 ≠ start+k := by
  induction blocks generalizing start k with
  | nil => cases here
  | cons first rest ih =>
    cases k with
    | zero =>
      cases here
      refine ⟨[],tagged (start+1) rest,rfl,fun x member => absurd member List.not_mem_nil,?_⟩
      intro x member
      have := tagged_bound (start+1) rest x member
      omega
    | succ k =>
      obtain ⟨before,after,split,early,late⟩ := ih (start+1) k here
      rw [Nat.add_right_comm start 1 k] at split early late
      refine ⟨first.map (start,·) ++ before,after,?_,?_,late⟩
      · rw [tagged,split]
        simp only [List.append_assoc,Nat.add_assoc]
      · refine List.forall_mem_append.mpr ⟨?_,early⟩
        intro x member
        obtain ⟨y,_,rfl⟩ := List.mem_map.mp member
        simp only
        omega

theorem first_unique {P : α → Prop} {x y : α} {before after before' after' : List α}
    (same : before ++ x::after = before' ++ y::after') (clear : ∀ z ∈ before, ¬ P z) (clear' : ∀ z ∈ before', ¬ P z)
    (special : P x) (special' : P y) : after = after' := by
  induction before generalizing before' with
  | nil =>
    cases before' with
    | nil => exact (List.cons.inj same).2
    | cons z before' =>
      obtain ⟨rfl,_⟩ := List.cons.inj same
      exact absurd special (clear' x (List.mem_cons_self ..))
  | cons z before ih =>
    cases before' with
    | nil =>
      obtain ⟨rfl,_⟩ := List.cons.inj same
      exact absurd special' (clear z (List.mem_cons_self ..))
    | cons z' before' =>
      obtain ⟨rfl,tail⟩ := List.cons.inj same
      exact ih tail (fun w member => clear w (List.mem_cons_of_mem _ member))
        fun w member => clear' w (List.mem_cons_of_mem _ member)

section Logs
variable [DecidableEq ι] {emits : ι → List α} {log : List (ι × α)}

theorem interleaves_filter (interleaves : Interleaves emits log) (p : ι) :
    log.filter (·.1 = p) = (emits p).map (p,·) := by
  rw [← interleaves p,List.map_map]
  refine (List.map_id _).symm.trans (List.map_congr_left fun x member => ?_)
  exact Prod.ext (by simpa using (List.mem_filter.mp member).2) rfl

theorem interleaves_alone {p : ι} (interleaves : Interleaves emits log) (alone : ∀ q, q ≠ p → emits q = []) :
    log = (emits p).map (p,·) := by
  rw [← interleaves_filter interleaves p]
  refine (List.filter_eq_self.mpr fun x member => ?_).symm
  by_contra other
  have other : x.1 ≠ p := by simpa using other
  have emitted : x ∈ log.filter (·.1 = x.1) := List.mem_filter.mpr ⟨member,by simp⟩
  rw [interleaves_filter interleaves,alone x.1 other] at emitted
  exact absurd emitted List.not_mem_nil

theorem interleaves_mem {p : ι} {x : α} (interleaves : Interleaves emits log) (emitted : x ∈ emits p) :
    (p,x) ∈ log := by
  have member : (p,x) ∈ log.filter (·.1 = p) := by
    rw [interleaves_filter interleaves]
    exact List.mem_map_of_mem emitted
  exact (List.mem_filter.mp member).1

theorem filter_mine (p r : ι) (l : List α) :
    ((l.map (p,·)).filter (·.1 = r)).map Prod.snd = if p = r then l else [] := by
  rw [List.filter_map,List.map_map]
  by_cases same : p = r
  · rw [if_pos same,List.filter_eq_self.mpr (fun x _ => by simp [same])]
    exact List.map_id l
  · rw [if_neg same,List.filter_eq_nil_iff.mpr (fun x _ => by simp [same])]
    rfl

theorem filter_others (emits : ι → List α) (processes : List ι) (distinct : processes.Nodup) (r : ι) :
    ((processes.flatMap fun p => (emits p).map (p,·)).filter (·.1 = r)).map Prod.snd =
      if r ∈ processes then emits r else [] := by
  induction processes with
  | nil => rfl
  | cons p rest ih =>
    obtain ⟨fresh,distinct⟩ := List.nodup_cons.mp distinct
    rw [List.flatMap_cons,List.filter_append,List.map_append,filter_mine,ih distinct]
    by_cases same : p = r
    · rw [if_pos same,if_neg (same ▸ fresh),if_pos (by simp [same]),List.append_nil,same]
    · rw [if_neg same,List.nil_append]
      simp only [List.mem_cons,Ne.symm same,false_or]

theorem interrupted [Fintype ι] (emits : ι → List α) {p q : ι} (other : q ≠ p) {first second : List α}
    (split : emits p = first ++ second) :
    ∃ rest, Interleaves emits (first.map (p,·) ++ ((emits q).map (q,·) ++ rest)) := by
  refine ⟨second.map (p,·) ++ ((Finset.univ.erase p).erase q).toList.flatMap fun r => (emits r).map (r,·),?_⟩
  intro r
  simp only [List.filter_append,List.map_append,filter_mine,filter_others emits _ (Finset.nodup_toList _)]
  by_cases mine : p = r
  · subst r
    simp [other,split]
  · by_cases its : q = r
    · subst r
      simp [mine]
    · simp [mine,its,Ne.symm mine,Ne.symm its]

end Logs

section Blocks
variable [DecidableEq ι] {blocks : ι → List (List α)} {log : List (ι × Nat × α)}

theorem filter_tagged (p : ι) (k : Nat) (block : List α) :
    (block.map fun x => (p,k,x)).filter (fun x => x.1 = p ∧ x.2.1 = k) = block.map fun x => (p,k,x) := by
  refine List.filter_eq_self.mpr fun x member => ?_
  obtain ⟨y,_,rfl⟩ := List.mem_map.mp member
  simp

theorem filter_block (interleaves : Interleaves (fun p => tagged 0 (blocks p)) log) {p : ι} {k : Nat}
    {block : List α} (here : (blocks p)[k]? = some block) :
    log.filter (fun x => x.1 = p ∧ x.2.1 = k) = block.map fun x => (p,k,x) := by
  obtain ⟨before,after,split,early,late⟩ := tagged_split 0 k (blocks p) block here
  rw [Nat.zero_add] at split early late
  have tag : (tagged 0 (blocks p)).filter (fun x => x.1 = k) = block.map (k,·) := by
    have none : before.filter (fun x => x.1 = k) = [] :=
      List.filter_eq_nil_iff.mpr fun x member => by simpa using early x member
    have nomore : after.filter (fun x => x.1 = k) = [] :=
      List.filter_eq_nil_iff.mpr fun x member => by simpa using late x member
    have all : (block.map (k,·)).filter (fun x => x.1 = k) = block.map (k,·) := by
      refine List.filter_eq_self.mpr fun x member => ?_
      obtain ⟨y,_,rfl⟩ := List.mem_map.mp member
      simp
    rw [split,List.filter_append,List.filter_append,none,nomore,all,List.nil_append,List.append_nil]
  have both : log.filter (fun x => x.1 = p ∧ x.2.1 = k) =
      (log.filter fun x => x.1 = p).filter fun x => x.2.1 = k := by
    rw [List.filter_filter]
    congr 1
    funext x
    simp only [Bool.decide_and,Bool.and_comm]
  rw [both,interleaves_filter interleaves,List.filter_map]
  change ((tagged 0 (blocks p)).filter fun x => x.1 = k).map (p,·) = _
  rw [tag,List.map_map]
  rfl

theorem whole_of_one (interleaves : Interleaves (fun p => tagged 0 (blocks p)) log) {p : ι} {k : Nat}
    {block : List α} (here : (blocks p)[k]? = some block) (short : block.length ≤ 1) : Whole log p k block := by
  match block,short with
  | [],_ => exact ⟨log,[],by simp⟩
  | [x],_ =>
    obtain ⟨before,after,split,_⟩ := tagged_split 0 k (blocks p) [x] here
    have emitted : (k,x) ∈ tagged 0 (blocks p) := by simp [split]
    obtain ⟨before,after,place⟩ := List.append_of_mem (interleaves_mem interleaves emitted)
    exact ⟨before,after,by simp [place]⟩

theorem whole_of_alone (interleaves : Interleaves (fun p => tagged 0 (blocks p)) log) {p : ι} {k : Nat}
    {block : List α} (here : (blocks p)[k]? = some block) (alone : ∀ q, q ≠ p → (blocks q).flatten = []) :
    Whole log p k block := by
  obtain ⟨before,after,split,_⟩ := tagged_split 0 k (blocks p) block here
  rw [interleaves_alone interleaves fun q other => (tagged_silent 0 (blocks q)).mpr (alone q other),split]
  refine ⟨before.map (p,·),after.map (p,·),?_⟩
  simp only [Nat.zero_add,List.map_append,List.map_map]
  rfl

/-- A block is whole in every interleaving exactly when it is a single emission, or
no other process emits anything. -/
theorem whole_iff [Fintype ι] (blocks : ι → List (List α)) {p : ι} {k : Nat} {block : List α}
    (here : (blocks p)[k]? = some block) :
    (∀ log, Interleaves (fun p => tagged 0 (blocks p)) log → Whole log p k block) ↔
      (block.length ≤ 1 ∨ ∀ q, q ≠ p → (blocks q).flatten = []) := by
  constructor
  · intro whole
    by_contra broken
    obtain ⟨long,q,other,loud⟩ : 1 < block.length ∧ ∃ q, q ≠ p ∧ (blocks q).flatten ≠ [] := by
      simpa using broken
    obtain ⟨x,y,more,rfl⟩ : ∃ x y more, block = x::y::more := by
      match block,long with
      | x::y::more,_ => exact ⟨x,y,more,rfl⟩
    obtain ⟨⟨_,z⟩,emitted,loud⟩ := List.exists_cons_of_ne_nil fun silent => loud ((tagged_silent 0 (blocks q)).mp silent)
    -- the other process emits all that it has after the first emission of the block
    obtain ⟨before,after,split,early,_⟩ := tagged_split 0 k (blocks p) _ here
    rw [Nat.zero_add] at split early
    have cut : tagged 0 (blocks p) = (before ++ [(k,x)]) ++ ((y::more).map (k,·) ++ after) := by simp [split]
    obtain ⟨rest,interleaves⟩ := interrupted (fun p => tagged 0 (blocks p)) other cut
    obtain ⟨head,tail,place⟩ := whole _ interleaves
    have clear : ∀ e ∈ head, ¬ (e.1 = p ∧ e.2.1 = k) := by
      have tags := filter_block interleaves here
      rw [place,List.filter_append,List.filter_append,filter_tagged] at tags
      have counted := congrArg List.length tags
      simp only [List.length_append] at counted
      have none : head.filter (fun e => e.1 = p ∧ e.2.1 = k) = [] := List.eq_nil_of_length_eq_zero (by omega)
      exact fun e member => by simpa using List.filter_eq_nil_iff.mp none e member
    have clear' : ∀ e ∈ before.map (p,·), ¬ (e.1 = p ∧ e.2.1 = k) := by
      intro e member
      obtain ⟨w,inside,rfl⟩ := List.mem_map.mp member
      exact fun same => early w inside same.2
    simp only [List.map_append,List.map_cons,List.map_nil,List.append_assoc,List.cons_append,List.nil_append] at place
    have after_same := first_unique place clear' clear ⟨rfl,rfl⟩ ⟨rfl,rfl⟩
    rw [loud,List.map_cons,List.cons_append] at after_same
    exact other (Prod.mk.inj (List.cons.inj after_same).1).1
  · rintro (short | alone) log interleaves
    · exact whole_of_one interleaves here short
    · exact whole_of_alone interleaves here alone

end Blocks

end Unixprog.Interleavings
