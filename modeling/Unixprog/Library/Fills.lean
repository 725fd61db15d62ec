import Unixprog.Library.Words

/-! Loops that write one byte again and again, and the bits of a word in memory. -/
namespace Unixprog.Words

def MappedFor (m : Memory) (a : Word) (size : Nat) : Prop := ∀ i < size, (m (a+BitVec.ofNat 64 i)).isSome

/-- `while(size--) *ptr++ = byte`, `none` when a byte cannot be written. -/
def fill (byte : Byte) : Nat → Word → Memory → Option Memory
  | 0,_,m => some m
  | size+1,ptr,m => if (m ptr).isSome then fill byte size (ptr+1) (Function.update m ptr (some byte)) else none

def filled (byte : Byte) (size : Nat) (ptr : Word) (m : Memory) : Memory := fun x =>
  if offset ptr x < size then some byte else m x

theorem offset_next (a x : Word) (later : x ≠ a) : offset a x = offset (a+1) x + 1 := by
  have moved : x-a = (x-(a+1))+1 := by bv_omega
  have positive : offset a x ≠ 0 := fun none => later (offset_zero.mp none)
  have one : (1 : Word).toNat = 1 := rfl
  simp only [offset,moved,BitVec.toNat_add,one] at positive ⊢
  have bound := (x-(a+1)).isLt
  by_cases last : (x-(a+1)).toNat + 1 = 2^64
  · rw [last] at positive
    exact absurd (Nat.mod_self _) positive
  · exact Nat.mod_eq_of_lt (by omega)

theorem mappedFor_succ (m : Memory) (a : Word) (size : Nat) :
    MappedFor m a (size+1) ↔ (m a).isSome ∧ MappedFor m (a+1) size := by
  have shift (i : Nat) : a+1+BitVec.ofNat 64 i = a+BitVec.ofNat 64 (i+1) := by
    rw [BitVec.add_assoc,BitVec.add_comm 1,BitVec.ofNat_add]
    rfl
  simp only [MappedFor,shift]
  constructor
  · intro mapped
    exact ⟨by simpa using mapped 0 (by omega),fun i small => mapped (i+1) (by omega)⟩
  · rintro ⟨first,rest⟩ i small
    cases i with
    | zero => simpa using first
    | succ i => exact rest i (by omega)

theorem mappedFor_update (m : Memory) (a b : Word) (byte : Byte) (size : Nat) (present : (m b).isSome) :
    MappedFor (Function.update m b (some byte)) a size ↔ MappedFor m a size := by
  have cell (x : Word) : (Function.update m b (some byte) x).isSome = (m x).isSome := by
    by_cases here : x = b
    · subst x
      rw [Function.update_self,present]
      rfl
    · rw [Function.update_of_ne here]
  simp only [MappedFor,cell]

theorem fill_eq (byte : Byte) (size : Nat) (small : size ≤ 2^64) (ptr : Word) (m : Memory) :
    (MappedFor m ptr size → fill byte size ptr m = some (filled byte size ptr m)) ∧
      (¬ MappedFor m ptr size → fill byte size ptr m = none) := by
  induction size generalizing ptr m with
  | zero =>
    refine ⟨fun _ => ?_,fun unmapped => absurd (fun i impossible => absurd impossible (by omega)) unmapped⟩
    exact congrArg some (funext fun x => (if_neg (Nat.not_lt_zero _)).symm)
  | succ size ih =>
    obtain ⟨whole,stops⟩ := ih (by omega) (ptr+1) (Function.update m ptr (some byte))
    rw [mappedFor_succ]
    by_cases present : (m ptr).isSome
    · rw [mappedFor_update m _ _ byte size present] at whole stops
      simp only [fill,present,if_true,true_and]
      refine ⟨fun mapped => ?_,stops⟩
      rw [whole mapped]
      refine congrArg some (funext fun x => ?_)
      by_cases first : x = ptr
      · subst x
        have around : ¬ offset (ptr+1) ptr < size := by
          have back : ptr-(ptr+1) = -1 := by bv_omega
          rw [offset,back]
          change ¬ 2^64-1 < size
          omega
        simp only [filled,if_neg around,Function.update_self,offset_self,Nat.zero_lt_succ,if_true]
      · simp only [filled,Function.update_of_ne first,offset_next ptr x first,Nat.succ_lt_succ_iff]
    · simp [fill,present]

theorem filled_mapped (byte : Byte) (size : Nat) (ptr a : Word) (m : Memory) (mapped : Mapped m a) :
    Mapped (filled byte size ptr m) a := by
  intro i small
  rw [filled]
  split
  · rfl
  · exact mapped i small

/-! The bits of the word at an address. -/

def BitAt (m : Memory) (a : Word) (k : Nat) : Prop :=
  ∃ byte, m (a+BitVec.ofNat 64 (k/8)) = some byte ∧ byte.getLsbD (k%8) = true

theorem bitAt_fetch {m : Memory} {a word : Word} (read : fetch m a = some word) {k : Nat} (small : k < 64) :
    BitAt m a k ↔ word.getLsbD k = true := by
  have byte := (fetch_bytes m a word read).2 (k/8) (by omega)
  have split : 8*(k/8)+k%8 = k := by omega
  simp only [BitAt,byte,Option.some.injEq,exists_eq_left',byteAt_bit _ _ _ (Nat.mod_lt k (by omega : 0 < 8)),split]

theorem bitAt_store (m : Memory) (a word : Word) {k : Nat} (small : k < 64) :
    BitAt (overwrite m a fun i => some (byteAt word i)) a k ↔ word.getLsbD k = true := by
  refine bitAt_fetch (fetch_eq _ _ _ fun i bound => ?_) small
  exact overwrite_inside m a (fun i => some (byteAt word i)) i bound

theorem bitAt_filled (byte : Byte) (size : Nat) (ptr a : Word) (m : Memory) (k : Nat) :
    BitAt (filled byte size ptr m) a k ↔
      if offset ptr (a+BitVec.ofNat 64 (k/8)) < size then byte.getLsbD (k%8) = true else BitAt m a k := by
  unfold BitAt filled
  split <;> simp

end Unixprog.Words
