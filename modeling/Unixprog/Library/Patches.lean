import Unixprog.Library.Words

/-! Patching single bytes of a memory by whole words. A patch saves the word at its
address and changes the first byte, taking it back rewrites the saved word. Patches
closer than a word see each other, so their order can matter. -/
namespace Unixprog.Patches
open Words

structure Patched where
  mem : Memory
  saved : Word → Option Word

inductive Edit
  | set (a : Word)
  | del (a : Word)

def Patched.afterSet (p : Patched) (trap : Byte) (a code : Word) : Patched :=
  ⟨Function.update p.mem a (some trap),Function.update p.saved a (some code)⟩

def Patched.afterDel (p : Patched) (a word : Word) : Patched :=
  ⟨overwrite p.mem a fun i => some (byteAt word i),Function.update p.saved a none⟩

def Patched.edit (trap : Byte) (p : Patched) : Edit → Option Patched
  | .set a => match p.saved a with
    | some _ => some p
    | none => (fetch p.mem a).map fun code => p.afterSet trap a code
  | .del a => match p.saved a with
    | none => none
    | some word => if Mapped p.mem a then some (p.afterDel a word) else none

def Patched.edits (trap : Byte) (p : Patched) (edits : List Edit) : Option Patched :=
  edits.foldlM (Patched.edit trap) p

def Edit.Within (S : Word → Prop) : Edit → Prop
  | .set a => S a
  | .del _ => True

def SameKeys (p q : Patched) : Prop := ∀ a, p.saved a = none ↔ q.saved a = none

/-- Edits that leave the same patches leave the same state. -/
def OrderIrrelevant (trap : Byte) (S : Word → Prop) (p : Patched) : Prop :=
  ∀ first second q r, (∀ edit ∈ first, edit.Within S) → (∀ edit ∈ second, edit.Within S) →
    p.edits trap first = some q → p.edits trap second = some r → SameKeys q r → q = r

def Patched.base (p : Patched) (a : Word) : Option Byte :=
  match p.saved a with
  | some word => some (byteAt word 0)
  | none => p.mem a

structure OrderFits (trap : Byte) (S : Word → Prop) (p : Patched) : Prop where
  listed : ∀ a v, S a → Mapped p.mem a → p.saved a = some v →
    p.mem a = some trap ∧ Agrees (fun _ => True) p.mem a v
  apart : ∀ a b, S a → S b → Mapped p.mem a → Mapped p.mem b → a ≠ b → offset a b < 8 →
    p.base b = some trap
  beside : ∀ a v b x, ¬ S a → Mapped p.mem a → p.saved a = some v → S b → Mapped p.mem b →
    offset a x < 8 → offset b x < 8 → x ≠ b → p.mem x = some (byteAt v (offset a x))
  across : ∀ a v b, ¬ S a → Mapped p.mem a → p.saved a = some v → S b → Mapped p.mem b → offset a b < 8 →
    byteAt v (offset a b) = trap ∧ p.base b = some trap
  unset : ∀ a v b u x, ¬ S a → ¬ S b → Mapped p.mem a → Mapped p.mem b → p.saved a = some v →
    p.saved b = some u → offset a x < 8 → offset b x < 8 → byteAt v (offset a x) = byteAt u (offset b x)

/-! Single edits. -/

section Edits
variable {trap : Byte} {p : Patched} {a : Word}

theorem edit_set (fresh : p.saved a = none) {code : Word} (found : fetch p.mem a = some code) :
    p.edit trap (.set a) = some (p.afterSet trap a code) := by
  simp only [Patched.edit,fresh,found,Option.map_some]

theorem edit_del {word : Word} (listed : p.saved a = some word) (mapped : Mapped p.mem a) :
    p.edit trap (.del a) = some (p.afterDel a word) := by
  simp only [Patched.edit,listed,if_pos mapped]

theorem afterSet_mapped (present : Mapped p.mem a) (code b : Word) :
    Mapped (p.afterSet trap a code).mem b ↔ Mapped p.mem b := update_mapped _ _ _ _ present.first

theorem afterDel_mapped (present : Mapped p.mem a) (word b : Word) :
    Mapped (p.afterDel a word).mem b ↔ Mapped p.mem b := overwrite_mapped _ _ _ _ present

theorem afterDel_inside (word x : Word) (inside : offset a x < 8) :
    (p.afterDel a word).mem x = some (byteAt word (offset a x)) := if_pos inside

theorem afterDel_outside (word x : Word) (outside : ¬ offset a x < 8) :
    (p.afterDel a word).mem x = p.mem x := if_neg outside

theorem afterSet_saved (code b : Word) :
    (p.afterSet trap a code).saved b = if b = a then some code else p.saved b := by
  simp only [Patched.afterSet,Function.update_apply]

theorem afterDel_saved (word b : Word) :
    (p.afterDel a word).saved b = if b = a then none else p.saved b := by
  simp only [Patched.afterDel,Function.update_apply]

theorem afterSet_mem (code x : Word) :
    (p.afterSet trap a code).mem x = if x = a then some trap else p.mem x := by
  simp only [Patched.afterSet,Function.update_apply]

end Edits

theorem byteAt_offset {m : Memory} {a word x : Word} (found : fetch m a = some word) (near : offset a x < 8) :
    m x = some (byteAt word (offset a x)) := by
  have byte := (fetch_bytes m a word found).2 (offset a x) near
  rwa [add_offset] at byte

theorem agrees_offset {m : Memory} {a word x : Word} (agrees : Agrees (fun _ => True) m a word)
    (near : offset a x < 8) (other : x ≠ a) : m x = some (byteAt word (offset a x)) := by
  have later : 0 < offset a x := Nat.pos_of_ne_zero fun none => other (offset_zero.mp none)
  have byte := agrees (offset a x) later near trivial
  rwa [add_offset] at byte

theorem fetch_of_offsets {m : Memory} {a word : Word}
    (bytes : ∀ x, offset a x < 8 → m x = some (byteAt word (offset a x))) : fetch m a = some word := by
  apply fetch_eq
  intro i small
  have byte := bytes (a+BitVec.ofNat 64 i) (by rw [offset_add a i (by omega)]; exact small)
  rwa [offset_add a i (by omega)] at byte

/-! What every state reached by edits looks like, when the words fit. -/

structure Tracks (trap : Byte) (S : Word → Prop) (p q : Patched) : Prop where
  mapped : ∀ a, Mapped q.mem a ↔ Mapped p.mem a
  word : ∀ a v, q.saved a = some v → p.saved a = some v ∨ S a ∧ p.saved a = none ∧ fetch p.mem a = some v
  armed : ∀ a, S a → Mapped p.mem a → q.saved a ≠ none → q.mem a = some trap
  clear : ∀ a, S a → Mapped p.mem a → q.saved a = none → q.mem a = p.base a
  lost : ∀ x a v, ¬ (S x ∧ Mapped p.mem x) → ¬ S a → p.saved a = some v → q.saved a = none →
    offset a x < 8 → Mapped p.mem a ∧ q.mem x = some (byteAt v (offset a x))
  kept : ∀ x, ¬ (S x ∧ Mapped p.mem x) →
    (∀ a v, ¬ S a → p.saved a = some v → q.saved a = none → ¬ offset a x < 8) → q.mem x = p.mem x

section Sufficient
variable {trap : Byte} {S : Word → Prop} {p q r : Patched}

theorem tracks_refl (fits : OrderFits trap S p) : Tracks trap S p p where
  mapped _ := Iff.rfl
  word _ _ listed := .inl listed
  armed a member mapped listed := by
    obtain ⟨v,found⟩ := Option.ne_none_iff_exists'.mp listed
    exact (fits.listed a v member mapped found).1
  clear a _ _ fresh := by simp only [Patched.base,fresh]
  lost _ _ _ _ _ listed gone _ := by simp [listed] at gone
  kept _ _ _ := rfl

theorem Tracks.window (tracks : Tracks trap S p q) (fits : OrderFits trap S p) (a x : Word) (member : S a)
    (mapped : Mapped p.mem a) (near : offset a x < 8) (other : x ≠ a) : q.mem x = p.mem x := by
  by_cases inner : S x ∧ Mapped p.mem x
  · have base := fits.apart a x member inner.1 mapped inner.2 other.symm near
    have before : p.mem x = some trap := by
      cases listed : p.saved x with
      | some v => exact (fits.listed x v inner.1 inner.2 listed).1
      | none => simpa only [Patched.base,listed] using base
    rw [before]
    by_cases fresh : q.saved x = none
    · rw [tracks.clear x inner.1 inner.2 fresh,base]
    · exact tracks.armed x inner.1 inner.2 fresh
  · by_cases covered : ∃ b v, ¬ S b ∧ p.saved b = some v ∧ q.saved b = none ∧ offset b x < 8
    · obtain ⟨b,v,outer,listed,gone,inside⟩ := covered
      obtain ⟨present,byte⟩ := tracks.lost x b v inner outer listed gone inside
      rw [byte,fits.beside b v a x outer present listed member mapped inside near other]
    · refine tracks.kept x inner ?_
      intro b v outer listed gone inside
      exact covered ⟨b,v,outer,listed,gone,inside⟩

theorem Tracks.member_word (tracks : Tracks trap S p q) (fits : OrderFits trap S p) (a v : Word)
    (member : S a) (mapped : Mapped p.mem a) (listed : q.saved a = some v) :
    p.base a = some (byteAt v 0) ∧ Agrees (fun _ => True) q.mem a v := by
  have later (i : Nat) (positive : 0 < i) (small : i < 8) :
      q.mem (a+BitVec.ofNat 64 i) = p.mem (a+BitVec.ofNat 64 i) :=
    tracks.window fits a _ member mapped (by rw [offset_add a i (by omega)]; exact small)
      (add_ne a i positive (by omega))
  obtain old | ⟨_,fresh,found⟩ := tracks.word a v listed
  · refine ⟨by simp only [Patched.base,old],?_⟩
    intro i positive small _
    rw [later i positive small]
    exact (fits.listed a v member mapped old).2 i positive small trivial
  · refine ⟨by simpa only [Patched.base,fresh] using fetch_first _ _ _ found,?_⟩
    intro i positive small _
    rw [later i positive small]
    exact (fetch_bytes _ _ _ found).2 i small

theorem tracks_set (tracks : Tracks trap S p q) (fits : OrderFits trap S p) (a code : Word) (member : S a)
    (fresh : q.saved a = none) (found : fetch q.mem a = some code) :
    Tracks trap S p (q.afterSet trap a code) := by
  have present := (fetch_bytes _ _ _ found).1
  have mapped := (tracks.mapped a).mp present
  have inner : S a ∧ Mapped p.mem a := ⟨member,mapped⟩
  refine ⟨?_,?_,?_,?_,?_,?_⟩
  · intro b
    rw [afterSet_mapped present,tracks.mapped]
  · intro b v listed
    rw [afterSet_saved] at listed
    split at listed
    next here =>
      subst b
      cases listed
      have byte : q.mem a = p.base a := tracks.clear a member mapped fresh
      cases old : p.saved a with
      | some v =>
        -- The patch was there at the beginning, and the same word is saved again.
        refine .inl (congrArg some ?_)
        have again : fetch q.mem a = some v := by
          apply fetch_of_offsets
          intro x near
          by_cases here : x = a
          · subst x
            simpa only [Patched.base,old,offset_self] using byte
          · rw [tracks.window fits a x member mapped near here]
            exact agrees_offset (fits.listed a v member mapped old).2 near here
        exact Option.some.inj (again.symm.trans found)
      | none =>
        refine .inr ⟨member,rfl,fetch_of_offsets ?_⟩
        intro x near
        by_cases here : x = a
        · subst x
          simp only [Patched.base,old] at byte
          rw [← byte]
          exact byteAt_offset found near
        · rw [← tracks.window fits a x member mapped near here]
          exact byteAt_offset found near
    next other => exact tracks.word b v listed
  · intro b member' mapped' listed
    rw [afterSet_mem]
    rw [afterSet_saved] at listed
    split
    next here => rfl
    next other =>
      rw [if_neg other] at listed
      exact tracks.armed b member' mapped' listed
  · intro b member' mapped' gone
    rw [afterSet_saved] at gone
    split at gone
    next here => cases gone
    next other =>
      rw [afterSet_mem,if_neg other]
      exact tracks.clear b member' mapped' gone
  · intro x b v outside outer listed gone near
    have apart : b ≠ a := fun same => outer (same ▸ member)
    have other : x ≠ a := fun same => outside (same ▸ inner)
    rw [afterSet_saved,if_neg apart] at gone
    rw [afterSet_mem,if_neg other]
    exact tracks.lost x b v outside outer listed gone near
  · intro x outside free
    have other : x ≠ a := fun same => outside (same ▸ inner)
    rw [afterSet_mem,if_neg other]
    refine tracks.kept x outside ?_
    intro b v outer listed gone
    have apart : b ≠ a := fun same => outer (same ▸ member)
    exact free b v outer listed (by rw [afterSet_saved,if_neg apart]; exact gone)

/-- Deleting a member of `S` changes its own byte only. -/
theorem Tracks.del_member (tracks : Tracks trap S p q) (fits : OrderFits trap S p) {a v : Word} (member : S a)
    (mapped : Mapped p.mem a) (listed : q.saved a = some v) (x : Word) :
    (q.afterDel a v).mem x = if x = a then p.base a else q.mem x := by
  obtain ⟨byte,agrees⟩ := tracks.member_word fits a v member mapped listed
  by_cases near : offset a x < 8
  · rw [afterDel_inside _ _ near]
    split
    next here =>
      subst x
      rw [byte,offset_self]
    next other => rw [agrees_offset agrees near other]
  · have other : x ≠ a := by
      rintro rfl
      simp at near
    rw [afterDel_outside _ _ near,if_neg other]

theorem Tracks.outer_word (tracks : Tracks trap S p q) {a v : Word} (outer : ¬ S a) (listed : q.saved a = some v) :
    p.saved a = some v := (tracks.word a v listed).resolve_right fun set => outer set.1

/-- Deleting a patch outside `S` leaves a trap on the members of `S` under its word. -/
theorem Tracks.del_outer (tracks : Tracks trap S p q) (fits : OrderFits trap S p) {a v x : Word} (outer : ¬ S a)
    (mapped : Mapped p.mem a) (listed : q.saved a = some v) (near : offset a x < 8) (inner : S x)
    (mapped' : Mapped p.mem x) : (q.afterDel a v).mem x = some trap ∧ p.base x = some trap := by
  obtain ⟨byte,base⟩ := fits.across a v x outer mapped (tracks.outer_word outer listed) inner mapped' near
  rw [afterDel_inside _ _ near,byte]
  exact ⟨rfl,base⟩

theorem tracks_del (tracks : Tracks trap S p q) (fits : OrderFits trap S p) (a v : Word)
    (listed : q.saved a = some v) (present : Mapped q.mem a) : Tracks trap S p (q.afterDel a v) := by
  have mapped := (tracks.mapped a).mp present
  refine ⟨?_,?_,?_,?_,?_,?_⟩
  · intro b
    rw [afterDel_mapped present,tracks.mapped]
  · intro b u found
    rw [afterDel_saved] at found
    split at found
    next here => cases found
    next other => exact tracks.word b u found
  · intro b member' mapped' found
    rw [afterDel_saved] at found
    split at found
    next here => exact absurd rfl found
    next other =>
      by_cases member : S a
      · rw [tracks.del_member fits member mapped listed,if_neg other]
        exact tracks.armed b member' mapped' found
      · by_cases near : offset a b < 8
        · exact (tracks.del_outer fits member mapped listed near member' mapped').1
        · rw [afterDel_outside _ _ near]
          exact tracks.armed b member' mapped' found
  · intro b member' mapped' gone
    by_cases member : S a
    · rw [tracks.del_member fits member mapped listed]
      split
      next here => rw [here]
      next other =>
        rw [afterDel_saved,if_neg other] at gone
        exact tracks.clear b member' mapped' gone
    · have other : b ≠ a := fun same => member (same ▸ member')
      rw [afterDel_saved,if_neg other] at gone
      by_cases near : offset a b < 8
      · obtain ⟨byte,base⟩ := tracks.del_outer fits member mapped listed near member' mapped'
        rw [byte,base]
      · rw [afterDel_outside _ _ near]
        exact tracks.clear b member' mapped' gone
  · intro x b u outside outer found gone near
    by_cases member : S a
    · have other : x ≠ a := fun same => outside (same ▸ ⟨member,mapped⟩)
      have apart : b ≠ a := fun same => outer (same ▸ member)
      rw [afterDel_saved,if_neg apart] at gone
      rw [tracks.del_member fits member mapped listed,if_neg other]
      exact tracks.lost x b u outside outer found gone near
    · have old : p.saved a = some v := tracks.outer_word member listed
      by_cases same : b = a
      · subst b
        rw [old] at found
        cases found
        exact ⟨mapped,afterDel_inside _ _ near⟩
      · rw [afterDel_saved,if_neg same] at gone
        obtain ⟨present',byte⟩ := tracks.lost x b u outside outer found gone near
        refine ⟨present',?_⟩
        by_cases inside : offset a x < 8
        · rw [afterDel_inside _ _ inside,fits.unset a v b u x member outer mapped present' old found inside near]
        · rw [afterDel_outside _ _ inside,byte]
  · intro x outside free
    by_cases member : S a
    · have other : x ≠ a := fun same => outside (same ▸ ⟨member,mapped⟩)
      rw [tracks.del_member fits member mapped listed,if_neg other]
      refine tracks.kept x outside ?_
      intro b u outer found gone
      have apart : b ≠ a := fun same => outer (same ▸ member)
      exact free b u outer found (by rw [afterDel_saved,if_neg apart]; exact gone)
    · have old : p.saved a = some v := tracks.outer_word member listed
      have far : ¬ offset a x < 8 := free a v member old (by rw [afterDel_saved,if_pos rfl])
      rw [afterDel_outside _ _ far]
      refine tracks.kept x outside ?_
      intro b u outer found gone
      refine free b u outer found ?_
      rw [afterDel_saved]
      split
      next here => rfl
      next other => exact gone

theorem tracks_edit (tracks : Tracks trap S p q) (fits : OrderFits trap S p) (edit : Edit)
    (within : edit.Within S) (done : q.edit trap edit = some r) : Tracks trap S p r := by
  cases edit with
  | set a =>
    cases listed : q.saved a with
    | some v =>
      simp only [Patched.edit,listed,Option.some.injEq] at done
      exact done ▸ tracks
    | none =>
      simp only [Patched.edit,listed,Option.map_eq_some_iff] at done
      obtain ⟨code,found,rfl⟩ := done
      exact tracks_set tracks fits a code within listed found
  | del a =>
    cases listed : q.saved a with
    | none => simp [Patched.edit,listed] at done
    | some v =>
      simp only [Patched.edit,listed] at done
      split at done
      next present =>
        cases done
        exact tracks_del tracks fits a v listed present
      next absent => cases done

theorem tracks_edits (tracks : Tracks trap S p q) (fits : OrderFits trap S p) (edits : List Edit)
    (within : ∀ edit ∈ edits, edit.Within S) (done : q.edits trap edits = some r) : Tracks trap S p r := by
  induction edits generalizing q with
  | nil =>
    cases done
    exact tracks
  | cons edit edits ih =>
    simp only [Patched.edits,List.foldlM_cons,Option.bind_eq_bind,Option.bind_eq_some_iff] at done
    obtain ⟨next,one,rest⟩ := done
    exact ih (tracks_edit tracks fits edit (within edit (.head _)) one)
      (fun edit member => within edit (.tail _ member)) rest

theorem tracks_unique (first : Tracks trap S p q) (second : Tracks trap S p r) (same : SameKeys q r) : q = r := by
  have words : q.saved = r.saved := by
    funext a
    cases left : q.saved a with
    | none => rw [(same a).mp left]
    | some v =>
      cases right : r.saved a with
      | none => rw [(same a).mpr right] at left; cases left
      | some u =>
        obtain old | ⟨_,fresh,found⟩ := first.word a v left
        · obtain old' | ⟨_,fresh',_⟩ := second.word a u right
          · rw [old] at old'
            exact old'
          · rw [old] at fresh'
            cases fresh'
        · obtain old' | ⟨_,_,found'⟩ := second.word a u right
          · rw [old'] at fresh
            cases fresh
          · rw [found] at found'
            exact found'
  have cells : q.mem = r.mem := by
    funext x
    by_cases inner : S x ∧ Mapped p.mem x
    · by_cases gone : q.saved x = none
      · rw [first.clear x inner.1 inner.2 gone,second.clear x inner.1 inner.2 ((same x).mp gone)]
      · rw [first.armed x inner.1 inner.2 gone,second.armed x inner.1 inner.2 fun none => gone ((same x).mpr none)]
    · by_cases covered : ∃ a v, ¬ S a ∧ p.saved a = some v ∧ q.saved a = none ∧ offset a x < 8
      · obtain ⟨a,v,outer,listed,gone,near⟩ := covered
        rw [(first.lost x a v inner outer listed gone near).2,
          (second.lost x a v inner outer listed ((same a).mp gone) near).2]
      · have free (a v : Word) (outer : ¬ S a) (listed : p.saved a = some v) (gone : q.saved a = none) :
            ¬ offset a x < 8 := fun near => covered ⟨a,v,outer,listed,gone,near⟩
        rw [first.kept x inner free,
          second.kept x inner fun a v outer listed gone => free a v outer listed ((same a).mpr gone)]
  cases q
  cases r
  simp only [Patched.mk.injEq]
  exact ⟨cells,words⟩

theorem fits_irrelevant (fits : OrderFits trap S p) : OrderIrrelevant trap S p := by
  intro first second q r within within' done done' same
  exact tracks_unique (tracks_edits (tracks_refl fits) fits first within done)
    (tracks_edits (tracks_refl fits) fits second within' done') same

end Sufficient

/-! What edits leave alone, whether the words fit or not. -/

structure Framed (S : Word → Prop) (p q : Patched) : Prop where
  mapped : ∀ a, Mapped q.mem a ↔ Mapped p.mem a
  unmapped : ∀ a, ¬ Mapped p.mem a → q.saved a = p.saved a
  keys : ∀ a, q.saved a ≠ none → p.saved a ≠ none ∨ S a
  cells : ∀ x, q.mem x = p.mem x ∨ ∃ a, (p.saved a ≠ none ∨ S a) ∧ Mapped p.mem a ∧ offset a x < 8

section Frame
variable {trap : Byte} {S : Word → Prop} {p q r : Patched}

theorem framed_refl : Framed S p p := ⟨fun _ => Iff.rfl,fun _ _ => rfl,fun _ key => .inl key,fun _ => .inl rfl⟩

theorem framed_edit (framed : Framed S p q) (edit : Edit) (within : edit.Within S)
    (done : q.edit trap edit = some r) : Framed S p r := by
  cases edit with
  | set a =>
    cases listed : q.saved a with
    | some v =>
      simp only [Patched.edit,listed,Option.some.injEq] at done
      exact done ▸ framed
    | none =>
      simp only [Patched.edit,listed,Option.map_eq_some_iff] at done
      obtain ⟨code,found,rfl⟩ := done
      have present := (fetch_bytes _ _ _ found).1
      have mapped := (framed.mapped a).mp present
      refine ⟨?_,?_,?_,?_⟩
      · intro b
        rw [afterSet_mapped present,framed.mapped]
      · intro b absent
        have other : b ≠ a := fun same => absent (same ▸ mapped)
        rw [afterSet_saved,if_neg other,framed.unmapped b absent]
      · intro b key
        by_cases here : b = a
        · exact .inr (here ▸ within)
        · rw [afterSet_saved,if_neg here] at key
          exact framed.keys b key
      · intro x
        by_cases here : x = a
        · exact .inr ⟨a,.inr within,mapped,by simp [here]⟩
        · rw [afterSet_mem,if_neg here]
          exact framed.cells x
  | del a =>
    cases listed : q.saved a with
    | none => simp [Patched.edit,listed] at done
    | some v =>
      simp only [Patched.edit,listed] at done
      split at done
      next present =>
        cases done
        have mapped := (framed.mapped a).mp present
        refine ⟨?_,?_,?_,?_⟩
        · intro b
          rw [afterDel_mapped present,framed.mapped]
        · intro b absent
          have other : b ≠ a := fun same => absent (same ▸ mapped)
          rw [afterDel_saved,if_neg other,framed.unmapped b absent]
        · intro b key
          rw [afterDel_saved] at key
          split at key
          next here => exact absurd rfl key
          next other => exact framed.keys b key
        · intro x
          by_cases near : offset a x < 8
          · exact .inr ⟨a,framed.keys a (by rw [listed]; simp),mapped,near⟩
          · rw [afterDel_outside _ _ near]
            exact framed.cells x
      next absent => cases done

theorem framed_edits (framed : Framed S p q) (edits : List Edit) (within : ∀ edit ∈ edits, edit.Within S)
    (done : q.edits trap edits = some r) : Framed S p r := by
  induction edits generalizing q with
  | nil =>
    cases done
    exact framed
  | cons edit edits ih =>
    simp only [Patched.edits,List.foldlM_cons,Option.bind_eq_bind,Option.bind_eq_some_iff] at done
    obtain ⟨next,one,rest⟩ := done
    exact ih (framed_edit framed edit (within edit (.head _)) one)
      (fun edit member => within edit (.tail _ member)) rest

end Frame

/-! Conversely, two short interleavings tell each way of not fitting. -/

section Necessary
variable {trap : Byte} {S : Word → Prop} {p : Patched}

theorem edits_cons {q r : Patched} {edit : Edit} {rest : List Edit} (one : p.edit trap edit = some q)
    (more : q.edits trap rest = some r) : p.edits trap (edit::rest) = some r := by
  simp only [Patched.edits,List.foldlM_cons,one,Option.bind_eq_bind,Option.bind_some]
  exact more

theorem edits_append {q r : Patched} {first second : List Edit} (one : p.edits trap first = some q)
    (more : q.edits trap second = some r) : p.edits trap (first ++ second) = some r := by
  simp only [Patched.edits,List.foldlM_append] at one more ⊢
  rw [one]
  exact more

theorem edits_nil : p.edits trap [] = some p := rfl

theorem afterDel_fetch (a word : Word) : fetch (p.afterDel a word).mem a = some word :=
  fetch_of_offsets fun x near => afterDel_inside word x near

theorem irrelevant_listed (irrelevant : OrderIrrelevant trap S p) (a v : Word) (member : S a)
    (mapped : Mapped p.mem a) (listed : p.saved a = some v) :
    p.mem a = some trap ∧ Agrees (fun _ => True) p.mem a v := by
  have gone : (p.afterDel a v).saved a = none := by rw [afterDel_saved,if_pos rfl]
  have same := irrelevant [] [.del a,.set a] p _ (by simp) (by simp [Edit.Within,member]) edits_nil
    (edits_cons (edit_del listed mapped) (edits_cons (edit_set gone (afterDel_fetch a v)) edits_nil)) (by
      intro b
      rw [afterSet_saved,afterDel_saved]
      by_cases here : b = a
      · simp [here,listed]
      · simp [here])
  have cell (x : Word) := congrFun (congrArg Patched.mem same) x
  refine ⟨by rw [cell a,afterSet_mem,if_pos rfl],?_⟩
  intro i positive small _
  rw [cell,afterSet_mem,if_neg (add_ne a i positive (by omega)),afterDel_inside _ _ (by
    rw [offset_add a i (by omega)]; exact small),offset_add a i (by omega)]

theorem neighbours_base {q : Patched} {dels : List Edit} (irrelevant : OrderIrrelevant trap S p) (a b : Word)
    (deletes : ∀ edit ∈ dels, edit.Within S) (reached : p.edits trap dels = some q) (member : S a)
    (member' : S b) (mapped : Mapped q.mem a) (mapped' : Mapped q.mem b) (fresh : q.saved a = none)
    (fresh' : q.saved b = none) (apart : a ≠ b) (near : offset a b < 8) : q.mem b = some trap := by
  obtain ⟨code,found,_⟩ := fetch_mapped _ _ mapped
  obtain ⟨code',found',_⟩ := fetch_mapped _ _ mapped'
  have lateMapped : Mapped (q.afterSet trap b code').mem a := (afterSet_mapped mapped' code' a).mpr mapped
  have lateMapped' : Mapped (q.afterSet trap a code).mem b := (afterSet_mapped mapped code b).mpr mapped'
  obtain ⟨late,foundLate,_⟩ := fetch_mapped _ _ lateMapped
  obtain ⟨late',foundLate',_⟩ := fetch_mapped _ _ lateMapped'
  have one : (q.afterSet trap a code).saved b = none := by rw [afterSet_saved,if_neg apart.symm,fresh']
  have two : (q.afterSet trap b code').saved a = none := by rw [afterSet_saved,if_neg apart,fresh]
  have same := irrelevant (dels ++ [.set a,.set b]) (dels ++ [.set b,.set a]) _ _
    (by simpa [Edit.Within,member,member',or_imp,forall_and] using deletes)
    (by simpa [Edit.Within,member,member',or_imp,forall_and] using deletes)
    (edits_append reached (edits_cons (edit_set fresh found) (edits_cons (edit_set one foundLate') edits_nil)))
    (edits_append reached (edits_cons (edit_set fresh' found') (edits_cons (edit_set two foundLate) edits_nil)))
    (by
      intro x
      simp only [afterSet_saved]
      by_cases here : x = a
      · simp [here,apart]
      · by_cases there : x = b <;> simp [here,there,apart.symm])
  have words := congrFun (congrArg Patched.saved same) a
  simp only [afterSet_saved,if_neg apart,if_true,Option.some.injEq] at words
  subst late
  have byte := byteAt_offset foundLate near
  rw [afterSet_mem,if_pos rfl] at byte
  rw [byteAt_offset found near,← byte]

theorem del_if_listed (irrelevant : OrderIrrelevant trap S p) (a b : Word) (member : S a)
    (mapped : Mapped p.mem a) (apart : a ≠ b) : ∃ dels q, (∀ edit ∈ dels, edit.Within S) ∧
      p.edits trap dels = some q ∧ q.saved a = none ∧ (∀ x, x ≠ a → q.saved x = p.saved x) ∧
      q.mem b = p.mem b ∧ ∀ x, Mapped q.mem x ↔ Mapped p.mem x := by
  cases listed : p.saved a with
  | none => exact ⟨[],p,by simp,edits_nil,listed,fun _ _ => rfl,rfl,fun _ => Iff.rfl⟩
  | some v =>
    refine ⟨[.del a],p.afterDel a v,by simp [Edit.Within],edits_cons (edit_del listed mapped) edits_nil,
      by rw [afterDel_saved,if_pos rfl],fun x other => by rw [afterDel_saved,if_neg other],?_,
      afterDel_mapped mapped v⟩
    by_cases near : offset a b < 8
    · rw [afterDel_inside _ _ near]
      exact (agrees_offset (irrelevant_listed irrelevant a v member mapped listed).2 near apart.symm).symm
    · rw [afterDel_outside _ _ near]

theorem irrelevant_apart (irrelevant : OrderIrrelevant trap S p) (a b : Word) (member : S a) (member' : S b)
    (mapped : Mapped p.mem a) (mapped' : Mapped p.mem b) (apart : a ≠ b) (near : offset a b < 8) :
    p.base b = some trap := by
  obtain ⟨dels,q,deletes,reached,fresh,others,byte,maps⟩ := del_if_listed irrelevant a b member mapped apart
  cases listed : p.saved b with
  | none =>
    have fresh' : q.saved b = none := by rw [others b apart.symm,listed]
    simp only [Patched.base,listed]
    rw [← byte]
    exact neighbours_base irrelevant a b deletes reached member member' ((maps a).mpr mapped)
      ((maps b).mpr mapped') fresh fresh' apart near
  | some u =>
    have listed' : q.saved b = some u := by rw [others b apart.symm,listed]
    have present := (maps b).mpr mapped'
    have all : ∀ edit ∈ dels ++ [.del b], edit.Within S := by
      simpa [Edit.Within,or_imp,forall_and] using deletes
    have trap' := neighbours_base irrelevant a b all
      (edits_append reached (edits_cons (edit_del listed' present) edits_nil)) member member'
      ((afterDel_mapped present u a).mpr ((maps a).mpr mapped)) ((afterDel_mapped present u b).mpr present)
      (by rw [afterDel_saved,if_neg apart,fresh]) (by rw [afterDel_saved,if_pos rfl]) apart near
    rw [afterDel_inside _ _ (by simp)] at trap'
    simpa only [Patched.base,listed,offset_self] using trap'

theorem dels_agree (irrelevant : OrderIrrelevant trap S p) (a v b u x : Word) (mapped : Mapped p.mem a)
    (mapped' : Mapped p.mem b) (listed : p.saved a = some v) (listed' : p.saved b = some u)
    (near : offset a x < 8) (near' : offset b x < 8) :
    byteAt v (offset a x) = byteAt u (offset b x) := by
  by_cases apart : a = b
  · subst b
    rw [listed] at listed'
    cases listed'
    rfl
  have one : (p.afterDel a v).saved b = some u := by rw [afterDel_saved,if_neg (Ne.symm apart),listed']
  have two : (p.afterDel b u).saved a = some v := by rw [afterDel_saved,if_neg apart,listed]
  have same := irrelevant [.del a,.del b] [.del b,.del a] _ _ (by simp [Edit.Within]) (by simp [Edit.Within])
    (edits_cons (edit_del listed mapped)
      (edits_cons (edit_del one ((afterDel_mapped mapped v b).mpr mapped')) edits_nil))
    (edits_cons (edit_del listed' mapped')
      (edits_cons (edit_del two ((afterDel_mapped mapped' u a).mpr mapped)) edits_nil))
    (by
      intro y
      simp only [afterDel_saved]
      by_cases here : y = a <;> by_cases there : y = b <;> simp [here,there])
  have cell := congrFun (congrArg Patched.mem same) x
  rw [afterDel_inside _ _ near',afterDel_inside _ _ near] at cell
  exact (Option.some.inj cell).symm

theorem del_set_agree (irrelevant : OrderIrrelevant trap S p) (a v b : Word) (outer : ¬ S a)
    (mapped : Mapped p.mem a) (listed : p.saved a = some v) (member : S b) (mapped' : Mapped p.mem b)
    (fresh : p.saved b = none) : (∀ x, offset a x < 8 → offset b x < 8 → p.mem x = some (byteAt v (offset a x))) ∧
      (offset a b < 8 → byteAt v (offset a b) = trap) := by
  have apart : b ≠ a := by
    rintro rfl
    exact outer member
  have fresh' : (p.afterDel a v).saved b = none := by rw [afterDel_saved,if_neg apart,fresh]
  obtain ⟨code,found,_⟩ := fetch_mapped _ _ mapped'
  obtain ⟨late,foundLate,_⟩ := fetch_mapped _ _ ((afterDel_mapped mapped v b).mpr mapped')
  have listed' : (p.afterSet trap b code).saved a = some v := by
    rw [afterSet_saved,if_neg apart.symm,listed]
  have same := irrelevant [.del a,.set b] [.set b,.del a] _ _ (by simp [Edit.Within,member])
    (by simp [Edit.Within,member])
    (edits_cons (edit_del listed mapped) (edits_cons (edit_set fresh' foundLate) edits_nil))
    (edits_cons (edit_set fresh found)
      (edits_cons (edit_del listed' ((afterSet_mapped mapped' code a).mpr mapped)) edits_nil))
    (by
      intro y
      simp only [afterSet_saved,afterDel_saved]
      by_cases here : y = a
      · simp [here,apart.symm]
      · by_cases there : y = b <;> simp [here,there,apart])
  have words := congrFun (congrArg Patched.saved same) b
  simp only [afterSet_saved,afterDel_saved,if_neg apart,if_true,Option.some.injEq] at words
  subst late
  refine ⟨?_,?_⟩
  · intro x near near'
    rw [byteAt_offset found near',← byteAt_offset foundLate near',afterDel_inside _ _ near]
  · intro near
    have cell := congrFun (congrArg Patched.mem same) b
    rw [afterSet_mem,if_pos rfl,afterDel_inside _ _ near] at cell
    exact (Option.some.inj cell).symm

theorem del_reset_agree (irrelevant : OrderIrrelevant trap S p) (a v b u : Word) (outer : ¬ S a)
    (mapped : Mapped p.mem a) (listed : p.saved a = some v) (member : S b) (mapped' : Mapped p.mem b)
    (listed' : p.saved b = some u) (near : offset a b < 8) :
    byteAt v (offset a b) = trap ∧ byteAt u 0 = trap := by
  have apart : b ≠ a := by
    rintro rfl
    exact outer member
  have one : (p.afterDel b u).saved a = some v := by rw [afterDel_saved,if_neg apart.symm,listed]
  have present := (afterDel_mapped mapped' u a).mpr mapped
  have fresh : ((p.afterDel b u).afterDel a v).saved b = none := by
    rw [afterDel_saved,if_neg apart,afterDel_saved,if_pos rfl]
  obtain ⟨late,foundLate,_⟩ := fetch_mapped _ _
    ((afterDel_mapped present v b).mpr ((afterDel_mapped mapped' u b).mpr mapped'))
  have same := irrelevant [.del a] [.del b,.del a,.set b] _ _ (by simp [Edit.Within])
    (by simp [Edit.Within,member]) (edits_cons (edit_del listed mapped) edits_nil)
    (edits_cons (edit_del listed' mapped')
      (edits_cons (edit_del one present) (edits_cons (edit_set fresh foundLate) edits_nil)))
    (by
      intro y
      simp only [afterSet_saved,afterDel_saved]
      by_cases here : y = a
      · simp [here,apart.symm]
      · by_cases there : y = b <;> simp [here,there,apart,listed'])
  have words := congrFun (congrArg Patched.saved same) b
  simp only [afterSet_saved,afterDel_saved,if_neg apart,if_true,listed',Option.some.injEq] at words
  subst late
  have cell := congrFun (congrArg Patched.mem same) b
  rw [afterSet_mem,if_pos rfl,afterDel_inside _ _ near] at cell
  have byte := byteAt_offset foundLate (by simp : offset b b < 8)
  rw [afterDel_inside _ _ near,offset_self,Option.some.injEq] at byte
  have first := Option.some.inj cell
  exact ⟨first,by rw [← byte,first]⟩

theorem irrelevant_fits (irrelevant : OrderIrrelevant trap S p) : OrderFits trap S p where
  listed a v member mapped listed := irrelevant_listed irrelevant a v member mapped listed
  apart a b member member' mapped mapped' apart near :=
    irrelevant_apart irrelevant a b member member' mapped mapped' apart near
  beside a v b x outer mapped listed member mapped' near near' other := by
    cases found : p.saved b with
    | none => exact (del_set_agree irrelevant a v b outer mapped listed member mapped' found).1 x near near'
    | some u =>
      rw [dels_agree irrelevant a v b u x mapped mapped' listed found near near']
      exact agrees_offset (irrelevant_listed irrelevant b u member mapped' found).2 near' other
  across a v b outer mapped listed member mapped' near := by
    cases found : p.saved b with
    | none =>
      obtain ⟨bytes,trapped⟩ := del_set_agree irrelevant a v b outer mapped listed member mapped' found
      refine ⟨trapped near,?_⟩
      simp only [Patched.base,found]
      rw [bytes b near (by simp),trapped near]
    | some u =>
      obtain ⟨trapped,under⟩ := del_reset_agree irrelevant a v b u outer mapped listed member mapped' found near
      exact ⟨trapped,by simp only [Patched.base,found,under]⟩
  unset a v b u x _ _ mapped mapped' listed listed' near near' :=
    dels_agree irrelevant a v b u x mapped mapped' listed listed' near near'

end Necessary

theorem irrelevant_iff_fits (trap : Byte) (S : Word → Prop) (p : Patched) :
    OrderIrrelevant trap S p ↔ OrderFits trap S p := ⟨irrelevant_fits,fits_irrelevant⟩

end Unixprog.Patches
