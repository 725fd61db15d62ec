import Mathlib.Data.BitVec
import Mathlib.Tactic.IntervalCases
import Mathlib.Logic.Function.Basic

/-! Little-endian 64-bit words over byte-addressed memories. An address space
is circular: a word at `a` occupies `a`, `a+1`, .., `a+7` modulo `2^64`. -/
namespace Unixprog.Words

abbrev Byte := BitVec 8
abbrev Word := BitVec 64

instance wordEq : LawfulBEq Word := inferInstance

def byteAt (word : Word) (i : Nat) : Byte := word.extractLsb' (8*i) 8

def assemble (f : Nat → Byte) : Word :=
  f 7 ++ (f 6 ++ (f 5 ++ (f 4 ++ (f 3 ++ (f 2 ++ (f 1 ++ f 0))))))

theorem byteAt_bit (word : Word) (i j : Nat) (small : j < 8) :
    (byteAt word i).getLsbD j = word.getLsbD (8*i+j) := by
  simp [byteAt,small]

theorem byteAt_assemble (f : Nat → Byte) (i : Nat) (small : i < 8) :
    byteAt (assemble f) i = f i := by
  apply BitVec.eq_of_getLsbD_eq
  intro j bound
  rw [byteAt_bit _ _ _ bound]
  interval_cases i <;> simp (disch := omega) only [assemble,BitVec.getLsbD_append,if_pos,if_neg]
  all_goals
    congr 1
    omega

theorem word_ext (v w : Word) (same : ∀ i < 8, byteAt v i = byteAt w i) : v = w := by
  apply BitVec.eq_of_getLsbD_eq
  intro j bound
  have bytes := congrArg (fun b : Byte => b.getLsbD (j%8)) (same (j/8) (by omega))
  simp only [byteAt_bit _ _ _ (Nat.mod_lt j (by omega : 0 < 8))] at bytes
  have split : 8*(j/8)+j%8 = j := by omega
  rwa [split] at bytes

theorem byteAt_and (v w : Word) (i : Nat) : byteAt (v &&& w) i = byteAt v i &&& byteAt w i := by
  apply BitVec.eq_of_getLsbD_eq
  intro j bound
  simp only [BitVec.getLsbD_and,byteAt_bit _ _ _ bound]

theorem byteAt_or (v w : Word) (i : Nat) : byteAt (v ||| w) i = byteAt v i ||| byteAt w i := by
  apply BitVec.eq_of_getLsbD_eq
  intro j bound
  simp only [BitVec.getLsbD_or,byteAt_bit _ _ _ bound]

theorem byteAt_withLow (word low : Word) (i : Nat) (small : i < 8)
    (single : ∀ k, 0 < k → k < 8 → byteAt low k = 0) :
    byteAt ((word &&& 0xffffffffffffff00#64) ||| low) i =
      if i = 0 then byteAt low 0 else byteAt word i := by
  rw [byteAt_or,byteAt_and]
  have mask : byteAt 0xffffffffffffff00#64 i = if i = 0 then 0#8 else 255#8 := by
    interval_cases i <;> decide
  rw [mask]
  split
  next first => subst i; simp
  next later =>
    rw [single i (by omega) small]
    have full : byteAt word i &&& 255#8 = byteAt word i := BitVec.and_allOnes
    rw [full]
    simp

/-! Offsets from a base address. -/

section Offsets
variable {a x : Word}

def offset (a x : Word) : Nat := (x-a).toNat

theorem offset_add (a : Word) (i : Nat) (small : i < 2^64) : offset a (a+BitVec.ofNat 64 i) = i := by
  have cancel : a + BitVec.ofNat 64 i - a = BitVec.ofNat 64 i := by
    rw [BitVec.add_comm,BitVec.add_sub_cancel]
  rw [offset,cancel,BitVec.toNat_ofNat,Nat.mod_eq_of_lt small]

@[simp] theorem offset_self (a : Word) : offset a a = 0 := by simp [offset]

theorem add_offset (a x : Word) : a+BitVec.ofNat 64 (offset a x) = x := by
  rw [offset,BitVec.ofNat_toNat,BitVec.setWidth_eq,BitVec.add_comm,BitVec.sub_add_cancel]

theorem offset_zero : offset a x = 0 ↔ x = a := by
  constructor
  · intro none
    have back := add_offset a x
    rw [none] at back
    simpa using back.symm
  · rintro rfl
    exact offset_self x

theorem add_ne (a : Word) (i : Nat) (positive : 0 < i) (small : i < 2^64) :
    a+BitVec.ofNat 64 i ≠ a := by
  intro equal
  have moved := offset_add a i small
  rw [equal,offset_self] at moved
  omega

end Offsets

/-! Overwriting a window of eight cells. -/

section Windows
variable {α : Type}

def overwrite (m : Word → α) (a : Word) (f : Nat → α) : Word → α :=
  fun x => if offset a x < 8 then f (offset a x) else m x

theorem overwrite_inside (m : Word → α) (a : Word) (f : Nat → α) (i : Nat) (small : i < 8) :
    overwrite m a f (a+BitVec.ofNat 64 i) = f i := by
  simp [overwrite,offset_add a i (by omega),small]

theorem overwrite_outside (m : Word → α) (a x : Word) (f : Nat → α) (outside : ¬ offset a x < 8) :
    overwrite m a f x = m x := by
  simp [overwrite,outside]

/-- Rewriting a window with its own contents except for the first cell changes
that cell only. -/
theorem overwrite_first (m : Word → α) (a : Word) (f : Nat → α)
    (same : ∀ i, 0 < i → i < 8 → f i = m (a+BitVec.ofNat 64 i)) :
    overwrite m a f = Function.update m a (f 0) := by
  funext x
  by_cases first : x = a
  · subst x
    simp [overwrite]
  · rw [Function.update_of_ne first]
    by_cases inside : offset a x < 8
    · have later : 0 < offset a x := Nat.pos_of_ne_zero (fun none => first (offset_zero.mp none))
      rw [overwrite,if_pos inside,same _ later inside,add_offset]
    · exact overwrite_outside _ _ _ _ inside

end Windows

/-! Partial memories: a word is read or written only when all of its bytes are
mapped. -/

abbrev Memory := Word → Option Byte

def Mapped (m : Memory) (a : Word) : Prop := ∀ i < 8, (m (a+BitVec.ofNat 64 i)).isSome

instance (m : Memory) (a : Word) : Decidable (Mapped m a) :=
  inferInstanceAs (Decidable (∀ i < 8, (m (a+BitVec.ofNat 64 i)).isSome))

def fetch (m : Memory) (a : Word) : Option Word :=
  if Mapped m a then some (assemble fun i => (m (a+BitVec.ofNat 64 i)).getD 0) else none

def store (m : Memory) (a word : Word) : Option Memory :=
  if Mapped m a then some (overwrite m a fun i => some (byteAt word i)) else none

theorem fetch_mapped (m : Memory) (a : Word) (mapped : Mapped m a) :
    ∃ word, fetch m a = some word ∧ ∀ i < 8, m (a+BitVec.ofNat 64 i) = some (byteAt word i) := by
  refine ⟨_,if_pos mapped,?_⟩
  intro i small
  obtain ⟨byte,present⟩ := Option.isSome_iff_exists.mp (mapped i small)
  rw [byteAt_assemble _ i small,present]
  rfl

theorem fetch_bytes (m : Memory) (a word : Word) (read : fetch m a = some word) :
    Mapped m a ∧ ∀ i < 8, m (a+BitVec.ofNat 64 i) = some (byteAt word i) := by
  by_cases mapped : Mapped m a
  · obtain ⟨other,again,bytes⟩ := fetch_mapped m a mapped
    have same : other = word := Option.some.inj (again.symm.trans read)
    exact ⟨mapped,same ▸ bytes⟩
  · simp [fetch,mapped] at read

theorem fetch_eq (m : Memory) (a word : Word) (bytes : ∀ i < 8, m (a+BitVec.ofNat 64 i) = some (byteAt word i)) :
    fetch m a = some word := by
  have mapped : Mapped m a := fun i small => by rw [bytes i small]; rfl
  obtain ⟨other,read,found⟩ := fetch_mapped m a mapped
  rw [read]
  apply congrArg some
  apply word_ext
  intro i small
  exact Option.some.inj ((found i small).symm.trans (bytes i small))

@[simp] theorem store_mapped (m : Memory) (a word : Word) (mapped : Mapped m a) :
    store m a word = some (overwrite m a fun i => some (byteAt word i)) := if_pos mapped

@[simp] theorem store_unmapped (m : Memory) (a word : Word) (unmapped : ¬ Mapped m a) :
    store m a word = none := if_neg unmapped

@[simp] theorem fetch_unmapped (m : Memory) (a : Word) (unmapped : ¬ Mapped m a) :
    fetch m a = none := if_neg unmapped

theorem overwrite_isSome (m : Memory) (a b : Word) (word : Word) (mapped : Mapped m a) :
    (overwrite m a (fun i => some (byteAt word i)) b).isSome = (m b).isSome := by
  by_cases inside : offset a b < 8
  · have present := mapped (offset a b) inside
    rw [add_offset] at present
    rw [overwrite,if_pos inside,present]
    rfl
  · rw [overwrite_outside _ _ _ _ inside]

theorem overwrite_mapped (m : Memory) (a b word : Word) (mapped : Mapped m a) :
    Mapped (overwrite m a fun i => some (byteAt word i)) b ↔ Mapped m b := by
  simp only [Mapped,overwrite_isSome m a _ word mapped]

theorem update_mapped (m : Memory) (a b : Word) (byte : Byte) (present : (m a).isSome) :
    Mapped (Function.update m a (some byte)) b ↔ Mapped m b := by
  have cell (x : Word) : (Function.update m a (some byte) x).isSome = (m x).isSome := by
    by_cases here : x = a
    · subst x; rw [Function.update_self,present]; rfl
    · rw [Function.update_of_ne here]
  simp only [Mapped,cell]

theorem Mapped.forward {m : Memory} {a x : Word} (mapped : Mapped m a) (null : m 0 = none)
    (near : offset a x < 8) : a ≤ x := by
  by_contra behind
  have below : x.toNat < a.toNat := by simpa [BitVec.le_def] using behind
  have short : 2^64-a.toNat+x.toNat < 8 := by
    rw [offset,BitVec.toNat_sub,Nat.mod_eq_of_lt (by omega)] at near
    exact near
  have zero : a+BitVec.ofNat 64 (2^64-a.toNat) = 0 := by
    apply BitVec.eq_of_toNat_eq
    have bound := a.isLt
    have small : 2^64-a.toNat < 2^64 := by omega
    rw [BitVec.toNat_add,BitVec.toNat_ofNat,Nat.mod_eq_of_lt small,Nat.add_sub_cancel' (Nat.le_of_lt bound)]
    rfl
  have present := mapped (2^64-a.toNat) (by omega)
  rw [zero,null] at present
  cases present

theorem Mapped.first {m : Memory} {a : Word} (mapped : Mapped m a) : (m a).isSome := by
  simpa using mapped 0 (by omega)

theorem store_withLow (m : Memory) (a word low : Word) (read : fetch m a = some word)
    (single : ∀ k, 0 < k → k < 8 → byteAt low k = 0) :
    store m a ((word &&& 0xffffffffffffff00#64) ||| low) =
      some (Function.update m a (some (byteAt low 0))) := by
  obtain ⟨mapped,bytes⟩ := fetch_bytes m a word read
  rw [store_mapped _ _ _ mapped]
  apply congrArg some
  rw [overwrite_first]
  · rw [byteAt_withLow _ _ _ (by omega) single]
    rfl
  · intro i positive small
    rw [byteAt_withLow _ _ _ small single,if_neg (by omega),bytes i small]

/-- The word agrees with the memory after its first byte, as far as `on` goes. -/
def Agrees (on : Word → Prop) (m : Memory) (a word : Word) : Prop :=
  ∀ i, 0 < i → i < 8 → on (a+BitVec.ofNat 64 i) → m (a+BitVec.ofNat 64 i) = some (byteAt word i)

theorem overwrite_agrees (on : Word → Prop) (m : Memory) (a word x : Word) (agrees : Agrees on m a word)
    (inside : on x) :
    overwrite m a (fun i => some (byteAt word i)) x = Function.update m a (some (byteAt word 0)) x := by
  by_cases first : x = a
  · subst x
    simp [overwrite]
  · rw [Function.update_of_ne first]
    by_cases near : offset a x < 8
    · have later : 0 < offset a x := Nat.pos_of_ne_zero (fun none => first (offset_zero.mp none))
      have same := agrees (offset a x) later near (by rwa [add_offset])
      rw [add_offset] at same
      rw [overwrite,if_pos near,same]
    · exact overwrite_outside _ _ _ _ near

theorem fetch_first (m : Memory) (a word : Word) (read : fetch m a = some word) :
    m a = some (byteAt word 0) := by
  simpa using (fetch_bytes m a word read).2 0 (by omega)

end Unixprog.Words
