import Mathlib.Data.List.Basic
import Mathlib.Data.List.Infix

/-! A buffer with the memory behind it: windows onto it, and strcmp of a string
in it with a constant. -/
namespace Unixprog.Buffers

section Windows
variable {α : Type} (buffer : List α) (behind : Nat → α)

/-- The buffer, and from its end on what happens to be in memory. -/
def readAt (i : Nat) : α := (buffer[i]?).getD (behind i)

theorem readAt_inside (i : Nat) (inside : i < buffer.length) : readAt buffer behind i = buffer[i] := by
  rw [readAt,List.getElem?_eq_getElem inside,Option.getD_some]

def window (start count : Nat) : List α := (List.range count).map fun i => readAt buffer behind (start+i)

@[simp] theorem window_length (start count : Nat) : (window buffer behind start count).length = count := by
  simp [window]

theorem window_take (start count part : Nat) (fits : part ≤ count) (inside : start+part ≤ buffer.length) :
    (window buffer behind start count).take part = (buffer.drop start).take part := by
  apply List.ext_getElem
  · simp only [List.length_take,window_length,List.length_drop]
    omega
  · intro i first second
    rw [List.length_take] at first
    rw [List.getElem_take,List.getElem_take,List.getElem_drop]
    simp only [window,List.getElem_map,List.getElem_range]
    exact readAt_inside buffer behind _ (by omega)

theorem window_inside (start count : Nat) (inside : start+count ≤ buffer.length) :
    window buffer behind start count = (buffer.drop start).take count := by
  have whole := window_take buffer behind start count count le_rfl inside
  rwa [List.take_of_length_le (window_length buffer behind start count).le] at whole

end Windows

section Comparison
variable {α : Type} [DecidableEq α]

def agrees (names : Nat → α) : Nat → List α → Bool
  | _,[] => true
  | start,c::word => names start == c && agrees names (start+1) word

/-- Where strcmp reads its first argument: up to the first difference. -/
def compared (names : Nat → α) : Nat → List α → List Nat
  | _,[] => []
  | start,c::word => start::if names start = c then compared names (start+1) word else []

variable (buffer : List α) (behind : Nat → α)

theorem agrees_present (start : Nat) (word : List α) (present : word <+: buffer.drop start) :
    agrees (readAt buffer behind) start word = true := by
  induction word generalizing start with
  | nil => rfl
  | cons c word ih =>
    obtain inside | outside := Nat.lt_or_ge start buffer.length
    · rw [List.drop_eq_getElem_cons inside,List.cons_prefix_cons] at present
      simp only [agrees,readAt_inside buffer behind start inside,present.1,ih (start+1) present.2,beq_self_eq_true,
        Bool.and_self]
    · rw [List.drop_eq_nil_of_le outside] at present
      simp at present

theorem present_of_agrees (start : Nat) (word : List α)
    (inside : ∀ i ∈ compared (readAt buffer behind) start word, i < buffer.length)
    (equal : agrees (readAt buffer behind) start word = true) : word <+: buffer.drop start := by
  induction word generalizing start with
  | nil => exact List.nil_prefix
  | cons c word ih =>
    have here : start < buffer.length := inside start (by simp [compared])
    simp only [agrees,Bool.and_eq_true,beq_iff_eq] at equal
    rw [List.drop_eq_getElem_cons here,List.cons_prefix_cons]
    refine ⟨(readAt_inside buffer behind start here) ▸ equal.1.symm,ih (start+1) ?_ equal.2⟩
    exact fun i read => inside i (by simp [compared,equal.1,read])

/-- strcmp leaves the buffer exactly where the buffer ends inside the word. -/
theorem compared_inside (start : Nat) (word : List α) :
    (∀ i ∈ compared (readAt buffer behind) start word, i < buffer.length) ↔
      (buffer.drop start <+: word → word <+: buffer.drop start) := by
  induction word generalizing start with
  | nil => simp [compared]
  | cons c word ih =>
    obtain inside | outside := Nat.lt_or_ge start buffer.length
    · rw [List.drop_eq_getElem_cons inside,List.cons_prefix_cons,List.cons_prefix_cons]
      by_cases equal : buffer[start] = c
      · simp only [compared,readAt_inside buffer behind start inside,equal,if_true,List.mem_cons,forall_eq_or_imp,
          inside,true_and,ih (start+1)]
      · simp [compared,readAt_inside buffer behind start inside,equal,inside]
    · rw [List.drop_eq_nil_of_le outside]
      constructor
      · intro reads
        exact absurd (reads start (by simp [compared])) (by omega)
      · intro ends
        simp at ends

end Comparison

end Unixprog.Buffers
