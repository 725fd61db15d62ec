import Unixprog.Libmini.Wrappers

/-! perror. It saves errno, but checks the variable again after two calls of write,
each of which sets it. -/
namespace Unixprog.Libmini
open Plays

def PERRMSG_MIN : Int := 0
def PERRMSG_MAX : Int := 34

def errmsg : List Str := [
  "Success",
  "Operation not permitted",
  "No such file or directory",
  "No such process",
  "Interrupted system call",
  "I/O error",
  "No such device or address",
  "Argument list too long",
  "Exec format error",
  "Bad file number",
  "No child processes",
  "Try again",
  "Out of memory",
  "Permission denied",
  "Bad address",
  "Block device required",
  "Device or resource busy",
  "File exists",
  "Cross-device link",
  "No such device",
  "Not a directory",
  "Is a directory",
  "Invalid argument",
  "File table overflow",
  "Too many open files",
  "Not a typewriter",
  "Text file busy",
  "File too large",
  "No space left on device",
  "Illegal seek",
  "Read-only file system",
  "Too many links",
  "Broken pipe",
  "Math argument out of domain of func",
  "Math result not representable"].map String.toList

/-- `while(*s++) count++`; a string may also end with the list. -/
def strlen : Str → Nat
  | [] => 0
  | c::rest => if c = '\x00' then 0 else strlen rest+1

def errmsgAt (i : Int) : Op Str :=
  if i < 0 then stop .outOfBounds
  else match errmsg[i.toNat]? with
    | some message => pure message
    | none => stop .outOfBounds

/-- The check of errno, with what it is by then, and the rest of perror. -/
def perrorRest (backup : Int) : Op Unit := do
  let unknown := "Unknown".toList
  let errno ← state
  if errno < PERRMSG_MIN ∨ PERRMSG_MAX < errno then
    let _ ← write 2 unknown (strlen unknown)
  else
    let message ← errmsgAt backup
    let _ ← write 2 message (strlen message)
  let _ ← write 2 "\n".toList 1

def perror (text : Option Str) : Op Unit := do
  let backup ← state
  match text with
  | some text =>
    let _ ← write 2 text (strlen text)
    let _ ← write 2 ": ".toList 2
  | none => pure ()
  perrorRest backup

def Known (e : Int) : Prop := PERRMSG_MIN ≤ e ∧ e ≤ PERRMSG_MAX

instance (e : Int) : Decidable (Known e) := inferInstanceAs (Decidable (_ ∧ _))

def described (e : Int) : Str := if Known e then (errmsg[e.toNat]?).getD [] else "Unknown".toList

/-- The string as C sees it. -/
def cut (text : Str) : Str := text.takeWhile (· ≠ '\x00')

def perrorTexts (e : Int) (text : Option Str) : List Str :=
  (text.elim [] fun text => [cut text,": ".toList]) ++ [described e,"\n".toList]

/-- What a call of write hands over, with its descriptor. -/
def handed : Sys → BitVec 32 × Str
  | .write fd buf count => (fd,buf.take count)
  | _ => (0,[])

/-- perror, called with errno at `e`, writes what it should and indexes no array out of bounds. -/
structure Reports (e : Int) (text : Option Str) (play : List (Sigma fun _ : Sys => Int)) (ending : Ending Int Stop Unit) :
    Prop where
  texts : play.map (handed ·.1) = (perrorTexts e text).map (2,·)
  returns : ∃ after, ending = .done () after

theorem take_strlen (text : Str) : text.take (strlen text) = cut text := by
  induction text with
  | nil => rfl
  | cons c rest ih =>
    by_cases stop : c = '\x00'
    · simp [strlen,cut,stop]
    · have going : cut (c::rest) = c::cut rest := by simp [cut,stop]
      rw [strlen,if_neg stop,List.take_succ_cons,ih,going]

theorem errmsg_plain : ∀ message ∈ errmsg, cut message = message ∧ message ≠ "Unknown".toList := by
  decide +kernel

theorem errmsg_known {e : Int} (known : Known e) : ∃ message ∈ errmsg, errmsg[e.toNat]? = some message := by
  have bound : e.toNat < errmsg.length := by
    change e.toNat < 35
    obtain ⟨low,high⟩ := known
    simp only [PERRMSG_MIN,PERRMSG_MAX] at low high
    omega
  exact ⟨_,List.getElem_mem bound,List.getElem?_eq_getElem bound⟩

theorem errmsgAt_known {e : Int} (known : Known e) : errmsgAt e = pure (described e) := by
  obtain ⟨message,_,found⟩ := errmsg_known known
  have positive : ¬ e < 0 := not_lt.mpr known.1
  simp only [errmsgAt,if_neg positive,found,described,if_pos known,Option.getD_some]

theorem errmsgAt_other {e : Int} (other : ¬ Known e) : errmsgAt e = stop .outOfBounds := by
  by_cases negative : e < 0
  · exact if_pos negative
  · have beyond : errmsg[e.toNat]? = none := by
      refine List.getElem?_eq_none ?_
      change 35 ≤ e.toNat
      simp only [Known,PERRMSG_MIN,PERRMSG_MAX] at other
      omega
    simp only [errmsgAt,if_neg negative,beyond]

theorem described_cut (e : Int) : cut (described e) = described e := by
  by_cases known : Known e
  · obtain ⟨message,listed,found⟩ := errmsg_known known
    simp only [described,if_pos known,found,Option.getD_some,(errmsg_plain message listed).1]
  · simp only [described,if_neg known]
    decide

theorem described_unknown (e : Int) : described e = "Unknown".toList ↔ ¬ Known e := by
  constructor
  · intro same known
    obtain ⟨message,listed,found⟩ := errmsg_known known
    simp only [described,if_pos known,found,Option.getD_some] at same
    exact (errmsg_plain message listed).2 same
  · exact fun other => if_neg other

/-! One call of write, and what follows. -/

section Plays
variable {play : List (Sigma fun _ : Sys => Int)} {ending : Ending Int Stop Unit} {backup errno : Int}

theorem plays_write {text : Str} {next : Op Unit}
    (goes : Played ((write 2 text (strlen text) >>= fun _ => next).run errno) play ending) :
    ∃ ret rest, play = ⟨.write 2 text (strlen text),ret⟩::rest ∧ Played (next.run (errnoAfter ret)) rest ending ∧
      handed (.write 2 text (strlen text)) = (2,cut text) := by
  obtain ⟨ret,rest,rfl,later⟩ := (plays_retval (by decide)).mp goes
  exact ⟨ret,rest,rfl,later,congrArg (Prod.mk 2) (take_strlen text)⟩

theorem plays_last (goes : Played ((write 2 "\n".toList 1 >>= fun _ => pure ()).run errno) play ending) :
    play.map (handed ·.1) = [(2,"\n".toList)] ∧ ∃ after, ending = .done () after := by
  obtain ⟨ret,rest,rfl,later⟩ := (plays_retval (by decide)).mp goes
  obtain ⟨rfl,rfl⟩ := plays_ret.mp later
  exact ⟨rfl,_,rfl⟩

/-- The rest is right exactly if errno now is in the range just when it was at the call. -/
theorem perrorRest_right (goes : Played ((perrorRest backup).run errno) play ending) :
    (play.map (handed ·.1) = [(2,described backup),(2,"\n".toList)] ∧ ∃ after, ending = .done () after) ↔
      (Known backup ↔ Known errno) := by
  have outside : errno < PERRMSG_MIN ∨ PERRMSG_MAX < errno ↔ ¬ Known errno := by
    rw [Known,not_and_or,not_le,not_le]
  unfold perrorRest at goes
  rw [then_run,state_run] at goes
  simp only [bind_ret,andThen_done,outside] at goes
  by_cases known : Known errno
  · rw [if_neg (not_not.mpr known)] at goes
    by_cases same : Known backup
    · rw [errmsgAt_known same] at goes
      obtain ⟨ret,rest,rfl,later,text⟩ := plays_write goes
      obtain ⟨last,done⟩ := plays_last later
      rw [described_cut] at text
      exact iff_of_true ⟨by rw [List.map_cons,last,text],done⟩ (iff_of_true same known)
    · rw [errmsgAt_other same] at goes
      obtain ⟨rfl,rfl⟩ := plays_ret.mp goes
      refine iff_of_false ?_ fun agree => same (agree.mpr known)
      rintro ⟨_,after,done⟩
      cases done
  · rw [if_pos known] at goes
    obtain ⟨ret,rest,rfl,later,text⟩ := plays_write goes
    obtain ⟨last,done⟩ := plays_last later
    have plain : cut "Unknown".toList = "Unknown".toList := by decide
    rw [List.map_cons,last,text,plain]
    constructor
    · rintro ⟨texts,_⟩
      have first := (Prod.mk.inj (List.cons.inj texts).1).2
      exact iff_of_false ((described_unknown backup).mp first.symm) known
    · intro agree
      rw [(described_unknown backup).mpr fun same => known (agree.mp same)]
      exact ⟨rfl,done⟩

end Plays

/-- perror is right exactly if the check that it makes after writing the prefix comes out as
it would have at the call. -/
theorem perror_right_iff (e : Int) (text : Option Str) (play : List (Sigma fun _ : Sys => Int))
    (ending : Ending Int Stop Unit) (goes : Played ((perror text).run e) play ending) :
    Reports e text play ending ↔
      (text.isSome → ∀ outcome, (play[1]?).map (·.2) = some outcome → (0 ≤ e ∧ e ≤ 34 ↔ -34 ≤ outcome)) := by
  have parts : Reports e text play ending ↔
      play.map (handed ·.1) = (perrorTexts e text).map (2,·) ∧ ∃ after, ending = .done () after :=
    ⟨fun reports => ⟨reports.texts,reports.returns⟩,fun both => ⟨both.1,both.2⟩⟩
  rw [parts]
  unfold perror at goes
  rw [then_run,state_run] at goes
  simp only [bind_ret,andThen_done] at goes
  cases text with
  | none =>
    change Played ((perrorRest e).run e) play ending at goes
    refine iff_of_true ((perrorRest_right goes).mpr Iff.rfl) ?_
    intro impossible
    cases impossible
  | some text =>
    obtain ⟨ret,_,rfl,second,first⟩ := plays_write goes
    obtain ⟨outcome,rest,rfl,later⟩ := (plays_retval (by decide)).mp second
    have checked : Known (errnoAfter outcome) ↔ -34 ≤ outcome := by
      simp only [Known,PERRMSG_MIN,PERRMSG_MAX,errnoAfter]
      split <;> omega
    have right := perrorRest_right later
    rw [checked] at right
    have colon : handed (.write 2 ": ".toList 2) = (2,": ".toList) := rfl
    simp only [List.map_cons,first,colon,perrorTexts,Option.elim_some,List.cons_append,List.nil_append,List.cons.injEq,
      true_and,List.map_nil,right]
    constructor
    · intro agree _ other same
      cases same
      exact agree
    · exact fun agree => agree rfl outcome rfl

/-- A run of perror in which every call of write returns 1. -/
def samplePerror (e : Int) (text : Option Str) : List (Sigma fun _ : Sys => Int) × Ending Int Stop Unit :=
  ((perror text).run e).play fun _ => 1

theorem perror_right_iff_missing :
    Reports 2 (some "cat".toList) (samplePerror 2 (some "cat".toList)).1 (samplePerror 2 (some "cat".toList)).2 := by
  refine (perror_right_iff 2 (some "cat".toList) _ _ (play_played _ _)).mpr fun _ outcome same => ?_
  cases same
  decide

/-- After the two calls of write errno is 0, and the table is indexed with 100. -/
theorem perror_indexes_outside :
    ¬ Reports 100 (some "cat".toList) (samplePerror 100 (some "cat".toList)).1 (samplePerror 100 (some "cat".toList)).2 := by
  intro reports
  obtain ⟨after,done⟩ := reports.returns
  cases done

end Unixprog.Libmini
