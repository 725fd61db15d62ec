import Unixprog.Sdb.Output
import Unixprog.Sdb.Sections

/-! Loads that fail, and what they leave behind: bytes in `elf_header`, and an open
stream for every file whose content is refused. -/
namespace Unixprog.Sdb
open Words Runs

/-- The file cannot be opened, or its content does not begin with the ELF magic. -/
def Unloadable (w : World) (fileName : String) : Prop :=
  ∀ bytes, w.file fileName = some bytes → bytes.take 4 ≠ elfMagic

def loads (w : World) (fuel : Nat) (fileNames : List String) : Op Unit := script w fuel (fileNames.map .load)

theorem loads_cons (w : World) (fuel : Nat) (fileName : String) (rest : List String) (s : Session) :
    (loads w fuel (fileName::rest)).run s = ((load w fileName).run s).andThen fun _ => loads w fuel rest := rfl

/-- What an operation leads to, with only the messages it printed itself. -/
def Outcome.since {α : Type} (count : Nat) : Outcome α → Outcome α
  | .done value t => .done value {t with out := t.out.drop count}
  | .exited code t => .exited code {t with out := t.out.drop count}
  | .waiting => .waiting

def Session.results (s : Session) (op : Op Unit) : Outcome Unit := (op.run s).since s.out.length

theorem results_blind {op : Op Unit} (blind : Blind op) (s : Session) :
    s.results op = op.run {s with out := []} := by
  have whole : s = Session.after s.out {s with out := []} := by simp [Session.after]
  have ran := blind s.out {s with out := []}
  rw [← whole] at ran
  rw [Session.results,ran]
  cases op.run {s with out := []} with
  | done value t => simp [Outcome.after,Outcome.since,Session.after]
  | exited code t => simp [Outcome.after,Outcome.since,Session.after]
  | waiting => rfl

def lastAndLater (w : World) (last : String) (later : World) (more : Nat) (commands : List Command) : Op Unit := do
  load w last
  script later more commands

/-- The loads of `files` return, and the last load and all commands after it do what
they do without them: what they print, the fields and the streams they leave. -/
structure Traceless (w : World) (s : Session) (files : List String) (last : String) : Prop where
  fits : ∀ before fileName after, files ++ [last] = before ++ fileName::after → ∀ fuel t,
    (loads w fuel before).run s = .done () t → t.sdb.state = .notLoaded → fileName.length < 64
  same : ∀ fuel, ∃ t, (loads w fuel files).run s = .done () t ∧ ∀ later more commands,
    t.results (lastAndLater w last later more commands) = s.results (lastAndLater w last later more commands)

section Loads
variable {w : World} {s t : Session}

theorem load_renamed (idle : s.sdb.state = .notLoaded) (name fileName : String) :
    (load w fileName).run {s with sdb := {s.sdb with programName := name}} = (load w fileName).run s := by
  simp only [load,bind_run,read_run,andThen_done,idle,ne_eq,not_true_eq_false,if_false,onSdb_run]

/-- Files that cannot be opened leave their names. -/
theorem loads_missing (fuel : Nat) {fileNames : List String} (idle : s.sdb.state = .notLoaded)
    (missing : ∀ fileName ∈ fileNames, s.opens w (w.file fileName) = none) :
    ∃ name rows, (loads w fuel fileNames).run s = .done () {s with sdb := {s.sdb with programName := name},out := rows} := by
  induction fileNames generalizing s with
  | nil => exact ⟨s.sdb.programName,s.out,rfl⟩
  | cons fileName rest ih =>
    obtain ⟨first,others⟩ := List.forall_mem_cons.mp missing
    rw [loads_cons,load_missing idle first,andThen_done]
    exact ih (s := Session.say {s with sdb := {s.sdb with programName := fileName}} _) idle others

theorem loads_busy (fuel : Nat) (fileNames : List String) (busy : s.sdb.state ≠ .notLoaded) :
    ∃ rows, (loads w fuel fileNames).run s = .done () {s with out := rows} := by
  induction fileNames generalizing s with
  | nil => exact ⟨s.out,rfl⟩
  | cons fileName rest ih =>
    rw [loads_cons,load_busy busy,andThen_done]
    exact ih (s := s.say _) busy

theorem load_opened {fileName : String} (ok : (load w fileName).run s = .done () t) : s.opened ≤ t.opened := by
  cases load_loading w fileName s with
  | busy busy ran =>
    simp only [ran,Outcome.done.injEq,true_and] at ok
    simp [← ok]
  | missing idle missing ran =>
    simp only [ran,Outcome.done.injEq,true_and] at ok
    simp [← ok]
  | refused bytes idle found bad ran =>
    simp only [ran,Outcome.done.injEq,true_and] at ok
    simp [← ok]
  | loaded bytes idle found magic sound ran =>
    simp only [ran,Outcome.done.injEq,true_and] at ok
    simp [← ok]
  | faults bytes u idle found magic faults opened child ran => simp [ran] at ok

theorem loads_opened {fuel : Nat} {fileNames : List String} (ok : (loads w fuel fileNames).run s = .done () t) :
    s.opened ≤ t.opened := by
  induction fileNames generalizing s with
  | nil =>
    cases ok
    exact le_rfl
  | cons fileName rest ih =>
    rw [loads_cons] at ok
    cases ran : (load w fileName).run s with
    | done value u =>
      rw [ran] at ok
      exact (load_opened ran).trans (ih ok)
    | exited code u => simp [ran] at ok
    | waiting => simp [ran] at ok

/-- Loads after which the debugger still has nothing loaded, and no more streams open
than before, have opened no file. -/
theorem loads_unopened {fuel : Nat} {fileNames : List String} (idle : s.sdb.state = .notLoaded)
    (ok : (loads w fuel fileNames).run s = .done () t) (still : t.sdb.state = .notLoaded) (few : t.opened ≤ s.opened) :
    ∀ fileName ∈ fileNames, s.opens w (w.file fileName) = none := by
  induction fileNames generalizing s with
  | nil =>
    intro fileName impossible
    cases impossible
  | cons fileName rest ih =>
    rw [loads_cons] at ok
    cases load_loading w fileName s with
    | busy busy ran => exact absurd idle busy
    | missing _ missing ran =>
      rw [ran,andThen_done] at ok
      exact List.forall_mem_cons.mpr ⟨missing,
        ih (s := Session.say {s with sdb := {s.sdb with programName := fileName}} _) idle ok few⟩
    | refused bytes _ found bad ran =>
      rw [ran,andThen_done] at ok
      have more := loads_opened ok
      rw [say_opened] at more
      exact absurd (more.trans few) (Nat.not_succ_le_self _)
    | loaded bytes _ found magic sound ran =>
      rw [ran,andThen_done] at ok
      obtain ⟨rows,after⟩ := loads_busy (w := w) fuel rest (s := Session.say {s with sdb := s.sdb.loads w fileName bytes}
        (.debug (s.sdb.greeting fileName bytes))) (by simp [SDB.loads])
      rw [after] at ok
      simp only [Outcome.done.injEq,true_and] at ok
      rw [← ok] at still
      simp [SDB.loads] at still
    | faults bytes u _ found magic faults opened child ran => simp [ran] at ok

/-! What a load shows of the session it starts from. -/

theorem missing_text (fileName : String) : s!"can not open {fileName}" ≠ s!"{fileName} is not a valid ELF file." := by
  intro same
  have lengths := congrArg String.length same
  have first : (toString "can not open ").length = 13 := rfl
  have last : (toString " is not a valid ELF file.").length = 25 := rfl
  rw [String.length_append,String.length_append,first,last] at lengths
  omega

theorem greeting_text (d : SDB) (fileName : String) (bytes : List Byte) :
    d.greeting fileName bytes ≠ "state must be NOT LOADED" := by
  intro same
  have first := congrArg (fun text => text.toList.head?) same
  have letters : (toString "program '").toList = 'p'::"rogram '".toList := rfl
  simp [SDB.greeting,letters] at first

/-- The streams open in the end, and where the debugger goes on its state and what it has said. -/
def Outcome.told : Outcome Unit → Nat × Option (State × List Message)
  | .done _ t => (t.opened,some (t.sdb.state,t.out))
  | .exited _ t => (t.opened,none)
  | .waiting => (0,none)

theorem told_say (s : Session) (sdb : SDB) (opened : Nat) (message : Message) :
    (Outcome.since s.out.length (.done () (Session.say {s with sdb := sdb,opened := opened} message))).told =
      (opened,some (sdb.state,[message])) := by
  simp [Outcome.since,Outcome.told,Session.say]

theorem load_told (w : World) (last : String) (s : Session) :
    s.sdb.state ≠ .notLoaded ∧ (s.results (load w last)).told =
        (s.opened,some (s.sdb.state,[.debug "state must be NOT LOADED"])) ∨
      s.sdb.state = .notLoaded ∧
        ((s.results (load w last)).told = (s.opened,some (.notLoaded,[.debug s!"can not open {last}"])) ∨
          (s.results (load w last)).told =
            (s.opened+1,some (.notLoaded,[.debug s!"{last} is not a valid ELF file."])) ∨
          (∃ bytes, (s.results (load w last)).told = (s.opened,some (.loaded,[.debug (s.sdb.greeting last bytes)]))) ∨
          (s.results (load w last)).told = (s.opened+1,none)) := by
  unfold Session.results
  cases load_loading w last s with
  | busy busy ran => exact .inl ⟨busy,by rw [ran]; exact told_say s s.sdb s.opened _⟩
  | missing idle missing ran =>
    refine .inr ⟨idle,.inl ?_⟩
    rw [ran,told_say s {s.sdb with programName := last} s.opened,← idle]
  | refused bytes idle found bad ran =>
    refine .inr ⟨idle,.inr (.inl ?_)⟩
    rw [ran,told_say,SDB.headed,← idle]
  | loaded bytes idle found magic sound ran =>
    refine .inr ⟨idle,.inr (.inr (.inl ⟨bytes,?_⟩))⟩
    rw [ran,told_say s (s.sdb.loads w last bytes) s.opened,SDB.loads]
  | faults bytes u idle found magic faults opened child ran =>
    refine .inr ⟨idle,.inr (.inr (.inr ?_))⟩
    rw [ran,← opened]
    rfl

/-- Where the same load shows the same, it starts with nothing loaded and no more streams open. -/
theorem results_load (w : World) (last : String) (idle : s.sdb.state = .notLoaded)
    (same : t.results (load w last) = s.results (load w last)) :
    t.sdb.state = .notLoaded ∧ t.opened ≤ s.opened := by
  have same := congrArg Outcome.told same
  obtain ⟨busy,_⟩ | ⟨_,here⟩ := load_told w last s
  · exact absurd idle busy
  obtain ⟨busy,there⟩ | ⟨idle',there⟩ := load_told w last t
  · rw [there] at same
    obtain here | here | ⟨bytes,here⟩ | here := here <;> rw [here] at same
    · simp [busy] at same
    · simp [busy] at same
    · simp only [Prod.mk.injEq,Option.some.injEq,List.cons.injEq,Message.debug.injEq] at same
      exact absurd same.2.2.1.symm (greeting_text _ _ _)
    · simp at same
  · refine ⟨idle',?_⟩
    obtain here | here | ⟨bytes,here⟩ | here := here <;> obtain there | there | ⟨more,there⟩ | there := there <;>
      rw [here,there] at same <;>
      simp only [Prod.mk.injEq,Option.some.injEq,List.cons.injEq,Message.debug.injEq,reduceCtorEq,false_and,and_false,
        and_true,true_and] at same
    -- A file that is not opened for want of a stream is not reported as one that is refused.
    all_goals first
      | omega
      | exact absurd same.2 (missing_text last)

theorem since_load (w : World) (last : String) (later : World) (more : Nat) (s : Session) :
    s.results (lastAndLater w last later more []) = s.results (load w last) := by
  simp only [Session.results,lastAndLater,bind_run]
  cases (load w last).run s <;> rfl

end Loads

theorem blind_lastAndLater (w : World) (last : String) (later : World) (more : Nat) (commands : List Command) :
    Blind (lastAndLater w last later more commands) :=
  blind_bind (blind_load w last) fun _ => blind_script later more commands

/-- Failed loads leave no trace exactly when none of them opened its file and all names
fit into `program_name`. -/
theorem traceless_iff (w : World) (s : Session) (idle : s.sdb.state = .notLoaded) (files : List String) (last : String) :
    Traceless w s files last ↔ (∀ fileName ∈ files, s.opens w (w.file fileName) = none) ∧
      ∀ fileName ∈ files ++ [last], fileName.length < 64 := by
  constructor
  · intro traceless
    have unopened : ∀ fileName ∈ files, s.opens w (w.file fileName) = none := by
      obtain ⟨t,ran,same⟩ := traceless.same 0
      have told := same w 0 []
      rw [since_load,since_load] at told
      obtain ⟨still,few⟩ := results_load w last idle told
      exact loads_unopened idle ran still few
    refine ⟨unopened,fun fileName member => ?_⟩
    obtain ⟨before,after,split⟩ := List.append_of_mem member
    have first : before <+: files := by
      refine List.prefix_of_prefix_length_le ⟨fileName::after,split.symm⟩ (List.prefix_append files [last]) ?_
      have lengths := congrArg List.length split
      simp only [List.length_append,List.length_cons,List.length_nil] at lengths
      omega
    obtain ⟨name,rows,ran⟩ := loads_missing 0 idle fun other member => unopened other (first.subset member)
    exact traceless.fits before fileName after split 0 _ ran idle
  · rintro ⟨unopened,short⟩
    refine ⟨fun before fileName after split _ _ _ _ => short fileName (by rw [split]; simp),fun fuel => ?_⟩
    obtain ⟨name,rows,ran⟩ := loads_missing fuel idle unopened
    refine ⟨_,ran,fun later more commands => ?_⟩
    rw [results_blind (blind_lastAndLater w last later more commands),
      results_blind (blind_lastAndLater w last later more commands)]
    have renamed := load_renamed (w := w) (s := {s with out := []}) idle name last
    simp only [lastAndLater,bind_run] at renamed ⊢
    rw [renamed]

def headerFiles : String → Option (List Byte)
  | "stale" => some [0x00#8,0x45#8,0x4c#8,0x46#8]
  | "short" => some [0x7f#8]
  | _ => none

def headerWorld : World := {sampleWorld [] (fun _ _ _ => .ended (.exited 0)) with file := headerFiles}

theorem stale_header_accepted :
    Reachable (debugger headerWorld) freshSession ∧ Unloadable headerWorld "stale" ∧
      ¬ Traceless headerWorld freshSession ["stale"] "short" := by
  refine ⟨fresh_reachable _,?_,?_⟩
  · intro bytes found
    cases found
    decide
  · intro traceless
    obtain ⟨t,ran,same⟩ := traceless.same 0
    cases ran
    have seen := congrArg Outcome.told (same headerWorld 0 [])
    cases seen

theorem traceless_iff_short : Traceless headerWorld freshSession ["missing"] "short" :=
  (traceless_iff headerWorld freshSession rfl ["missing"] "short").mpr ⟨by decide,by decide⟩

end Unixprog.Sdb
