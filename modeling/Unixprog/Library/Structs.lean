import Unixprog.Library.Fills
import Unixprog.Library.X86

/-! Records in a memory: words stored next to each other, and what a store leaves alone. -/
namespace Unixprog.Words
open X86

section Stores
variable {m m' : Memory} {a b word x : Word} {n : Nat}

theorem store_fetch (stored : store m a word = some m') : fetch m' a = some word := by
  by_cases mapped : Mapped m a
  · rw [store_mapped _ _ _ mapped] at stored
    cases stored
    exact fetch_eq _ _ _ fun i small => overwrite_inside m a (fun i => some (byteAt word i)) i small
  · rw [store_unmapped _ _ _ mapped] at stored
    cases stored

theorem store_outside (stored : store m a word = some m') (outside : Outside x a 8) : m' x = m x := by
  by_cases mapped : Mapped m a
  · rw [store_mapped _ _ _ mapped] at stored
    cases stored
    refine overwrite_outside _ _ _ _ fun inside => ?_
    exact outside (offset a x) inside (add_offset a x).symm
  · rw [store_unmapped _ _ _ mapped] at stored
    cases stored

theorem store_isSome (stored : store m a word = some m') (x : Word) : (m' x).isSome = (m x).isSome := by
  by_cases mapped : Mapped m a
  · rw [store_mapped _ _ _ mapped] at stored
    cases stored
    exact overwrite_isSome m a x word mapped
  · rw [store_unmapped _ _ _ mapped] at stored
    cases stored

theorem fetch_congr (same : ∀ i < 8, m' (a+BitVec.ofNat 64 i) = m (a+BitVec.ofNat 64 i)) : fetch m' a = fetch m a := by
  have mapped : Mapped m' a ↔ Mapped m a := forall₂_congr fun i small => by rw [same i small]
  by_cases present : Mapped m a
  · obtain ⟨word,read,bytes⟩ := fetch_mapped m a present
    rw [read]
    exact fetch_eq _ _ _ fun i small => by rw [same i small,bytes i small]
  · rw [fetch_unmapped _ _ present,fetch_unmapped _ _ (mapped.not.mpr present)]

end Stores

/-- Memory that has been written in some places at most. -/
structure Within (places : Word → Prop) (m m' : Memory) : Prop where
  present : ∀ x, (m' x).isSome = (m x).isSome
  same : ∀ x, ¬ places x → m' x = m x

section Places
variable {places : Word → Prop} {m m' m'' : Memory} {a word : Word}

theorem Within.trans (first : Within places m m') (second : Within places m' m'') : Within places m m'' :=
  ⟨fun x => (second.present x).trans (first.present x),fun x out => (second.same x out).trans (first.same x out)⟩

theorem Within.mapped {mapped : Word → Prop} (within : Within places m m') (present : ∀ x, (m x).isSome ↔ mapped x) :
    ∀ x, (m' x).isSome ↔ mapped x := fun x => by rw [within.present,present]

theorem within_fetch (within : Within places m m') (clear : ∀ i < 8, ¬ places (a+BitVec.ofNat 64 i)) :
    fetch m' a = fetch m a := fetch_congr fun i small => within.same _ (clear i small)

/-- The `n` bytes from `a` on. -/
def Window (a : Word) (n : Nat) (x : Word) : Prop := ¬ Outside x a n

theorem store_within (stored : store m a word = some m') : Within (Window a 8) m m' :=
  ⟨store_isSome stored,fun _ far => store_outside stored (not_not.mp far)⟩

theorem window_apart {b : Word} {n k : Nat} (apart : Apart a n b k) {i : Nat} (inside : i < n) :
    ¬ Window b k (a+BitVec.ofNat 64 i) := not_not.mpr fun j bound => apart i inside j bound

end Places

/-! The words of a record: the word `i` of the record at `a` stands at `a+8*i`. -/

def wordAt (a : Word) (i : Nat) : Word := a+BitVec.ofNat 64 (8*i)

/-- The `n` bytes from `a` on can be read and written. -/
def Holds (mapped : Word → Prop) (a : Word) (n : Nat) : Prop := ∀ i < n, mapped (a+BitVec.ofNat 64 i)

section Records
variable {m m' : Memory} {a : Word} {n i j : Nat} {mapped : Word → Prop}

theorem wordAt_apart (a : Word) (other : i ≠ j) (small : 8*i+8 ≤ 2^64) (small' : 8*j+8 ≤ 2^64) :
    Apart (wordAt a i) 8 (wordAt a j) 8 := apart_same a (8*i) (8*j) 8 8 (by omega) small small'

theorem wordAt_mapped (present : ∀ x, (m x).isSome ↔ mapped x) (holds : Holds mapped a n) (inside : 8*i+8 ≤ n) :
    Mapped m (wordAt a i) := by
  intro k small
  rw [wordAt,add_ofNat]
  exact (present _).mpr (holds _ (by omega))

theorem wordAt_store (present : ∀ x, (m x).isSome ↔ mapped x) (holds : Holds mapped a n) (inside : 8*i+8 ≤ n)
    (word : Word) : ∃ m', store m (wordAt a i) word = some m' ∧ fetch m' (wordAt a i) = some word ∧
      Within (Window (wordAt a i) 8) m m' := by
  have stored := store_mapped m (wordAt a i) word (wordAt_mapped present holds inside)
  exact ⟨_,stored,store_fetch stored,store_within stored⟩

theorem wordAt_within (within : Within (Window (wordAt a i) 8) m m') (inside : 8*i+8 ≤ n) : Within (Window a n) m m' := by
  refine ⟨within.present,fun x far => within.same x ?_⟩
  rw [Window,not_not] at far ⊢
  intro k small
  rw [wordAt,add_ofNat]
  exact far _ (by omega)

theorem wordAt_other (within : Within (Window (wordAt a i) 8) m m') (other : j ≠ i) (small : 8*i+8 ≤ 2^64)
    (small' : 8*j+8 ≤ 2^64) : fetch m' (wordAt a j) = fetch m (wordAt a j) :=
  within_fetch within fun _ inside => window_apart (wordAt_apart a other small' small) inside

end Records

end Unixprog.Words
