import Unixprog.Logger.Records
import Unixprog.Library.Interleavings

/-! Several processes that write to one log, each dprintf being atomic. -/
namespace Unixprog.Logger
open Plays Interleavings

def Interaction.texts (n : Int) (i : Interaction) : List Str :=
  ((logged i.play).filter (·.1 = n)).map Prod.snd

structure Logging (n : Int) where
  statics : Statics
  calls : List Interaction
  made : Session statics calls
  knows : Knows n statics
  tells : ∀ i ∈ calls, ∀ x ∈ i.play, Tells n x

def Logging.blocks {n : Int} (process : Logging n) : List (List Str) := process.calls.map (·.texts n)

def Logging.emits {n : Int} (process : Logging n) : List (Nat × Str) := tagged 0 process.blocks

/-- Every record in the log is in one piece: nothing stands between the texts of one
call that returned. -/
def RecordsWhole {ι : Type} {n : Int} (processes : ι → Logging n) (log : List (ι × Nat × Str)) : Prop :=
  ∀ p k i, (processes p).calls[k]? = some i → i.ending.result.isSome → Whole log p k (i.texts n)

theorem session_recorded {n : Int} {statics : Statics} {calls : List Interaction} (made : Session statics calls)
    (knows : Knows n statics) (tells : ∀ i ∈ calls, ∀ x ∈ i.play, Tells n x) :
    ∀ i ∈ calls, ∀ result, i.ending.result = some result → Recorded i.call result (i.texts n) := by
  induction made with
  | nil statics => exact fun i member => absurd member List.not_mem_nil
  | returned statics errno call play result after rest goes later ih =>
    obtain ⟨told,tells⟩ := List.forall_mem_cons.mp tells
    obtain ⟨knows',ts,recorded,same⟩ := perform_writes n call statics play result after goes knows told
    refine List.forall_mem_cons.mpr ⟨?_,ih knows' tells⟩
    rintro _ ⟨⟩
    have texts : Interaction.texts n ⟨errno,call,play,.done result after⟩ = ts := by
      simp only [Interaction.texts,same]
      rw [List.filter_eq_self.mpr (by simp),List.map_map]
      exact List.map_id ts
    rw [texts]
    exact recorded
  | stopped statics errno call play why goes =>
    rintro i member result returned
    cases List.mem_singleton.mp member
    cases returned

/-- Whatever the order of the processes' steps, every record is in one piece: this
holds exactly when no process completes a read, write, fread or fwrite while another
process writes to the log at all. -/
theorem records_whole_iff {ι : Type} [Fintype ι] [DecidableEq ι] {n : Int} (processes : ι → Logging n) :
    (∀ log, Interleaves (fun p => (processes p).emits) log → RecordsWhole processes log) ↔
      ∀ p, ∀ i ∈ (processes p).calls, i.ending.result.isSome → i.call.transfers = true →
        ∀ q, q ≠ p → ∀ j ∈ (processes q).calls, j.texts n = [] := by
  have silent (q : ι) : ((processes q).blocks).flatten = [] ↔ ∀ j ∈ (processes q).calls, j.texts n = [] := by
    simp [Logging.blocks]
  have one (p : ι) (k : Nat) (i : Interaction) (here : (processes p).calls[k]? = some i)
      (returned : i.ending.result.isSome) :
      (∀ log, Interleaves (fun p => (processes p).emits) log → Whole log p k (i.texts n)) ↔
        (i.call.transfers = true → ∀ q, q ≠ p → ∀ j ∈ (processes q).calls, j.texts n = []) := by
    have block : (processes p).blocks[k]? = some (i.texts n) := by
      rw [Logging.blocks,List.getElem?_map,here]
      rfl
    obtain ⟨result,ended⟩ := Option.isSome_iff_exists.mp returned
    have parts := (session_recorded (processes p).made (processes p).knows (processes p).tells i
      (List.mem_of_getElem? here) result ended).parts
    refine (whole_iff (fun p => (processes p).blocks) block).trans ?_
    simp only [silent]
    cases moves : i.call.transfers with
    | true =>
      rw [moves,if_pos rfl] at parts
      have long : ¬ (i.texts n).length ≤ 1 := by omega
      simp [long]
    | false =>
      rw [moves,if_neg (by decide)] at parts
      simp [parts]
  constructor
  · intro whole p i member returned
    obtain ⟨k,here⟩ := List.getElem?_of_mem member
    exact (one p k i here returned).mp fun log interleaves => whole log interleaves p k i here returned
  · intro apart log interleaves p k i here returned
    exact (one p k i here returned).mpr (apart p i (List.mem_of_getElem? here) returned) log interleaves

/-! Two processes on standard error. -/

theorem sampleAnswer_tells (q : Query) : Tells 2 ⟨q,sampleAnswer q⟩ := by
  cases q with
  | logger => rfl
  | _ => trivial

def callOnce (call : Call) : Logging 2 where
  statics := Statics.initial
  calls := [firstCall sampleAnswer call]
  made := firstCall_session sampleAnswer call
  knows := .inl (by decide)
  tells := by
    refine List.forall_mem_singleton.mpr fun x member => ?_
    rw [play_answers _ _ x member]
    exact sampleAnswer_tells x.1

def samplePair : Bool → Logging 2
  | false => callOnce (.read 3 0x1000 0)
  | true => callOnce .tmpfile

/-- The record of tmpfile comes between the two texts of the record of read. -/
def tornLog : List (Bool × Nat × Str) := [
  (false,0,"[logger] read(\"/f\", \"".toList),
  (true,0,"[logger] tmpfile() = (nil)\n".toList),
  (false,0,"\", 0) = 0\n".toList)]

theorem record_torn : Interleaves (fun p => (samplePair p).emits) tornLog ∧ ¬ RecordsWhole samplePair tornLog := by
  constructor
  · intro p
    cases p with
    | false => rfl
    | true => rfl
  · intro whole
    obtain ⟨before,after,place⟩ := whole false 0 _ rfl rfl
    have texts : (firstCall sampleAnswer (.read 3 0x1000 0)).texts 2 =
        ["[logger] read(\"/f\", \"".toList,"\", 0) = 0\n".toList] := rfl
    rw [texts] at place
    match before,place with
    | [],place => simp [tornLog] at place
    | [_],place => simp [tornLog] at place
    | _::_::before,place =>
      have long := congrArg List.length place
      simp only [tornLog,List.length_append,List.length_cons,List.length_map,List.length_nil] at long
      omega

end Unixprog.Logger
