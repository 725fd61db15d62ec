import Unixprog.Sdb.Lifecycle

/-! The signals that sdb sends. Nothing but quit sends any, so over a session it is one at
most, at its end. -/
namespace Unixprog.Sdb
open Words Runs

def Outcome.final {α : Type} : Outcome α → Option Session
  | .done _ t => some t
  | .exited _ t => some t
  | .waiting => none

def Process.pid : Process → Option Nat
  | .unborn => none
  | .stopped pid _ => some pid
  | .resumed pid _ _ => some pid
  | .ended pid _ => some pid

/-- Nothing is sent yet, and the child came from fork. -/
structure Innocent (s : Session) : Prop where
  sent : s.sent = []
  forked : ∀ pid, s.process.pid = some pid → 0 < pid

/-- The operation sends nothing, however it ends. -/
def Mute {α : Type} (op : Op α) : Prop := ∀ s t, Innocent s → (op.run s).final = some t → Innocent t

section Rules
variable {α β : Type}

theorem mute_pure (value : α) : Mute (pure value : Op α) := by
  rintro s t innocent ⟨⟩
  exact innocent

theorem mute_read : Mute read := by
  rintro s t innocent ⟨⟩
  exact innocent

theorem mute_wait : Mute (wait : Op α) := by
  rintro s t innocent ⟨⟩

theorem mute_modify {f : Session → Session} (keeps : ∀ s, Innocent s → Innocent (f s)) : Mute (modify f) := by
  rintro s t innocent ⟨⟩
  exact keeps s innocent

theorem mute_onSdb (f : SDB → SDB) : Mute (onSdb f) := mute_modify fun _ innocent => ⟨innocent.sent,innocent.forked⟩

theorem mute_say (message : Message) : Mute (say message) := mute_modify fun _ innocent => ⟨innocent.sent,innocent.forked⟩

theorem mute_debug (text : String) : Mute (debug text) := mute_say _

theorem mute_error (text : String) (line : Nat) : Mute (error text line : Op α) := by
  rintro s t innocent ⟨⟩
  exact ⟨innocent.sent,innocent.forked⟩

theorem mute_crash : Mute (crash : Op α) := by
  rintro s t innocent ⟨⟩
  exact innocent

theorem mute_bind {first : Op α} {next : α → Op β} (one : Mute first) (two : ∀ a, Mute (next a)) :
    Mute (first >>= next) := by
  intro s t innocent ends
  rw [bind_run] at ends
  cases ran : first.run s with
  | done a u =>
    rw [ran] at ends
    exact two a u t (one s u innocent (by rw [ran]; rfl)) ends
  | exited code u =>
    rw [ran] at ends
    exact one s t innocent (by rw [ran]; exact ends)
  | waiting =>
    rw [ran] at ends
    cases ends

theorem mute_ite (c : Prop) [Decidable c] {first second : Op α} (one : Mute first) (two : Mute second) :
    Mute (if c then first else second) := by
  split
  · exact one
  · exact two

theorem mute_forM (items : List α) {f : α → Op Unit} (each : ∀ item, Mute (f item)) : Mute (items.forM f) := by
  induction items with
  | nil => exact mute_pure ()
  | cons item items ih => exact mute_bind (each item) fun _ => ih

end Rules

/-! The requests. -/

theorem withChild_innocent {s : Session} (innocent : Innocent s) {c : Child} (traced : s.tracee = some c) (c' : Child) :
    Innocent (s.withChild c') := by
  refine ⟨innocent.sent,?_⟩
  rintro _ ⟨⟩
  refine innocent.forked s.sdb.pid ?_
  rw [(tracee_some s c).mp traced]
  rfl

theorem mute_peekText (addr : Word) : Mute (peekText addr) := by
  rintro s t innocent ⟨⟩
  exact innocent

theorem mute_getRegs : Mute getRegs := by
  rintro s t innocent ⟨⟩
  exact innocent

theorem mute_setOptions : Mute setOptions := by
  rintro s t innocent ⟨⟩
  exact innocent

theorem mute_pokeText (addr data : Word) : Mute (pokeText addr data) := by
  intro s t innocent ends
  simp only [pokeText] at ends
  split at ends
  next => cases ends; exact innocent
  next child traced =>
    split at ends
    next => cases ends; exact innocent
    next mem stored => cases ends; exact withChild_innocent innocent traced _

theorem mute_setRegs (regs : Registers) : Mute (setRegs regs) := by
  intro s t innocent ends
  simp only [setRegs] at ends
  split at ends
  next => cases ends; exact innocent
  next child traced => cases ends; exact withChild_innocent innocent traced _

theorem mute_letRun (request : Request) : Mute (letRun request) := by
  intro s t innocent ends
  simp only [letRun] at ends
  split at ends
  next => cases ends; exact innocent
  next child traced =>
    cases ends
    have stopped := (tracee_some s child).mp traced
    exact ⟨innocent.sent,fun pid same => innocent.forked pid (by rw [stopped]; exact same)⟩

theorem mute_fopen {α : Type} (w : World) (content : Option α) : Mute (fopen w content) := by
  intro s t innocent ends
  unfold fopen at ends
  dsimp only at ends
  split at ends
  next => cases ends; exact innocent
  next => cases ends; exact ⟨innocent.sent,innocent.forked⟩

theorem mute_fclose : Mute fclose := mute_modify fun _ innocent => ⟨innocent.sent,innocent.forked⟩

theorem mute_waitpid (w : World) (fuel : Nat) : Mute (waitpid w fuel) := by
  intro s t innocent ends
  simp only [waitpid] at ends
  split at ends
  next pid request child resumed =>
    have forked : 0 < pid := innocent.forked pid (by rw [resumed]; rfl)
    split at ends
    next =>
      split at ends
      next => cases ends
      next =>
        cases ends
        refine ⟨innocent.sent,?_⟩
        rintro _ ⟨⟩
        exact forked
      next =>
        cases ends
        refine ⟨innocent.sent,?_⟩
        rintro _ ⟨⟩
        exact forked
    next => cases ends; exact innocent
  next =>
    split at ends
    next => cases ends
    next => cases ends; exact innocent
  next => cases ends; exact innocent

/-! The methods. -/

theorem mute_rearm (addr : Word) : Mute (rearm addr) :=
  mute_bind mute_read fun _ => mute_bind (mute_peekText _) fun _ => mute_bind (mute_pokeText _ _) fun _ =>
    mute_ite _ (mute_pure _) (mute_error _ _)

theorem mute_spawn (w : World) (pid : ℕ+) : Mute (spawn w pid) := by
  refine mute_bind (mute_modify fun _ innocent => ⟨innocent.sent,innocent.forked⟩) fun _ => mute_bind mute_read fun s => ?_
  cases w.exec s.sdb.programName with
  | some child =>
    refine mute_modify fun s innocent => ⟨innocent.sent,?_⟩
    rintro _ ⟨⟩
    exact pid.pos
  | none =>
    refine mute_bind (mute_say _) fun _ => mute_modify fun s innocent => ⟨innocent.sent,?_⟩
    rintro _ ⟨⟩
    exact pid.pos

theorem mute_start (w : World) : Mute (start w) := by
  refine mute_bind mute_read fun s => mute_ite _ (mute_debug _) ?_
  cases w.fork s.clock with
  | none => exact mute_error _ _
  | some pid =>
    refine mute_bind (mute_spawn w pid) fun _ => mute_bind mute_setOptions fun _ => ?_
    have rest : Mute (debug s!"pid {pid.val}" >>= fun _ => onSdb (fun d => {d with state := .running}) >>= fun _ =>
        read >>= fun s => s.sdb.addrList.toList.forM fun entry => rearm entry.1) :=
      mute_bind (mute_debug _) fun _ => mute_bind (mute_onSdb _) fun _ => mute_bind mute_read fun _ =>
        mute_forM _ fun _ => mute_rearm _
    exact mute_ite _ rest (mute_bind (mute_error _ _) fun _ => rest)

theorem mute_setBreak (addr : Word) : Mute (setBreak addr) :=
  mute_bind mute_read fun _ => mute_ite _ (mute_debug _) (mute_ite _ (mute_debug _) (mute_ite _ (mute_pure _)
    (mute_bind (mute_peekText _) fun _ => mute_bind (mute_onSdb _) fun _ => mute_bind (mute_pokeText _ _) fun _ =>
      mute_ite _ (mute_pure _) (mute_error _ _))))

theorem mute_restoreBp : Mute restoreBp := by
  refine mute_bind mute_read fun s => mute_ite _ ?_ (mute_pure _)
  refine mute_bind (mute_say _) fun _ => mute_bind (mute_peekText _) fun _ => mute_bind (mute_pokeText _ _) fun _ => ?_
  exact mute_ite _ (mute_onSdb _) (mute_bind (mute_error _ _) fun _ => mute_onSdb _)

theorem mute_disasm (w : World) (addr : Word) (len : Nat) : Mute (disasm w addr len) := by
  refine mute_bind mute_read fun s => mute_ite _ (mute_debug _) (mute_ite _ (mute_debug _) (mute_ite _ (mute_error _ _) ?_))
  split
  · exact mute_debug _
  · exact mute_forM _ fun _ => mute_say _

theorem mute_reportHit (w : World) (regs : Registers) (addr value : Word) : Mute (reportHit w regs addr value) :=
  mute_bind (mute_say _) fun _ => mute_bind (mute_disasm w addr 1) fun _ => mute_bind (mute_peekText _) fun _ =>
    mute_bind (mute_onSdb _) fun _ => mute_bind (mute_setRegs _) fun _ => mute_ite _ (mute_pure _) (mute_error _ _)

theorem mute_liftTrap (line : Nat) : Mute (liftTrap line) :=
  mute_bind mute_read fun _ => mute_ite _ (mute_bind (mute_pokeText _ _) fun _ => mute_ite _ (mute_pure _) (mute_error _ _))
    (mute_pure _)

/-- The body of si and of cont: the child is let run, and what follows waits for it. -/
theorem mute_resume {rest : Op Unit} (mute : Mute rest) (lift : Nat) (request : Request) (text : String) (line : Nat) :
    Mute (liftTrap lift >>= fun _ => letRun request >>= fun ok => if ok = true then rest else
      error text line >>= fun _ : PUnit => rest) :=
  mute_bind (mute_liftTrap _) fun _ => mute_bind (mute_letRun _) fun _ => mute_ite _ mute (mute_bind (mute_error _ _) fun _ => mute)

theorem mute_checkProcess (w : World) (fuel : Nat) : Mute (si w fuel) ∧ Mute (checkProcess w fuel) := by
  induction fuel with
  | zero =>
    unfold si checkProcess
    exact ⟨mute_wait,mute_wait⟩
  | succ fuel ih =>
    obtain ⟨step,check⟩ := ih
    constructor
    · unfold si
      exact mute_bind mute_read fun s => mute_ite _ (mute_debug _) (mute_resume check _ _ _ _)
    · unfold checkProcess
      refine mute_bind (mute_waitpid w _) fun status => mute_bind mute_read fun s => ?_
      split
      next => exact mute_error _ _
      next => exact mute_bind (mute_debug _) fun _ => mute_onSdb _
      next =>
        refine mute_ite _ (mute_bind mute_restoreBp fun _ => mute_bind mute_getRegs fun regs => ?_) (mute_debug _)
        split
        next => exact mute_error _ _
        next regs =>
          split
          next => exact mute_reportHit w _ _ _
          next => exact mute_ite _ step (mute_pure _)
      next => exact mute_debug _

theorem mute_cont (w : World) (fuel : Nat) : Mute (cont w fuel) :=
  mute_bind mute_read fun _ => mute_ite _ (mute_debug _) (mute_resume (mute_checkProcess w fuel).2 _ _ _ _)

theorem mute_getregs : Mute getregs := by
  refine mute_bind mute_read fun s => mute_ite _ (mute_debug _) (mute_bind mute_getRegs fun regs => ?_)
  cases regs with
  | none => exact mute_error _ _
  | some regs => exact mute_say _

theorem mute_del (id : Int) : Mute (del id) := by
  refine mute_bind mute_read fun s => mute_ite _ (mute_debug _) (mute_ite _ (mute_debug _) ?_)
  cases s.sdb.addrList.toList[id.toNat]? with
  | none => exact mute_debug _
  | some entry =>
    refine mute_bind (mute_pokeText _ _) fun _ => ?_
    have rest : Mute (onSdb (fun d => {d with addrList := d.addrList.erase entry.1}) >>= fun _ =>
        debug s!"breakpoint {id} deleted.") := mute_bind (mute_onSdb _) fun _ => mute_debug _
    exact mute_ite _ rest (mute_bind (mute_error _ _) fun _ => rest)

theorem mute_dump (addr : Word) : Mute (dump addr) :=
  mute_bind mute_read fun _ => mute_ite _ (mute_debug _) (mute_ite _ (mute_debug _) (mute_forM _ fun _ =>
    mute_bind (mute_peekText _) fun _ => mute_bind (mute_peekText _) fun _ => mute_say _))

theorem mute_get (regName : String) : Mute (get regName) := by
  refine mute_bind mute_read fun s => mute_ite _ (mute_debug _) (mute_bind mute_getRegs fun regs => ?_)
  cases regs with
  | none => exact mute_error _ _
  | some regs =>
    cases found : getReg regs regName with
    | none => simpa only [found] using mute_pure ()
    | some value => simpa only [found] using mute_say _

theorem mute_run (w : World) (fuel : Nat) : Mute (run w fuel) := by
  refine mute_bind mute_read fun s => ?_
  cases s.sdb.state with
  | running => exact mute_bind (mute_debug _) fun _ => mute_cont w fuel
  | loaded => exact mute_bind (mute_start w) fun _ => mute_cont w fuel
  | notLoaded => exact mute_debug _

theorem mute_set (regName : String) (val : Word) : Mute (set regName val) := by
  refine mute_bind mute_getRegs fun regs => ?_
  cases regs with
  | none => exact mute_error _ _
  | some regs =>
    cases found : setReg regs val regName with
    | none => simpa only [found] using mute_pure ()
    | some regs =>
      have rest : Mute (setRegs regs >>= fun ok => if ok = true then pure PUnit.unit else error "ptrace: PTRACE_SETREGS failed" 494) :=
        mute_bind (mute_setRegs _) fun _ => mute_ite _ (mute_pure _) (mute_error _ _)
      simp only [found]
      exact mute_ite _ (mute_bind (mute_onSdb _) fun _ => rest) rest

theorem mute_vmmap (w : World) : Mute (vmmap w) := by
  refine mute_bind mute_read fun s => mute_ite _ (mute_debug _) (mute_bind (mute_fopen w _) fun lines => ?_)
  cases lines with
  | none => exact mute_error _ _
  | some lines => exact mute_forM _ fun _ => mute_say _

theorem mute_getCode (w : World) (fileName : String) : Mute (getCode w fileName) := by
  refine mute_bind (mute_fopen w _) fun content => ?_
  cases content with
  | none => exact mute_crash
  | some bytes =>
    have rest := mute_bind (mute_onSdb fun d => {d with codeSize := bytes.length,codeText := some bytes}) fun _ => mute_fclose
    exact mute_ite _ (mute_bind mute_crash fun _ => rest) rest

theorem mute_load (w : World) (fileName : String) : Mute (load w fileName) := by
  refine mute_bind mute_read fun s => mute_ite _ (mute_debug _)
    (mute_bind (mute_onSdb _) fun _ => mute_bind (mute_fopen w _) fun content => ?_)
  cases content with
  | none => exact mute_debug _
  | some bytes =>
    refine mute_bind (mute_onSdb _) fun _ => mute_bind mute_read fun _ => mute_ite _ (mute_debug _) ?_
    refine mute_bind mute_read fun _ => ?_
    have rest (f : SDB → SDB) (text : String) : Mute (do onSdb f; debug text; fclose; getCode w fileName) :=
      mute_bind (mute_onSdb _) fun _ => mute_bind (mute_debug _) fun _ => mute_bind mute_fclose fun _ =>
        mute_getCode w fileName
    exact mute_ite _ (mute_bind mute_crash fun _ => rest _ _) (rest _ _)

theorem mute_perform (w : World) (fuel : Nat) {command : Command} (stays : command ≠ .exit) :
    Mute (command.perform w fuel) := by
  cases command with
  | «break» addr => exact mute_setBreak addr
  | cont => exact mute_cont w fuel
  | delete id => exact mute_del id
  | disasm addr => exact mute_disasm w addr 10
  | dump addr => exact mute_dump addr
  | exit => exact absurd rfl stays
  | get regName => exact mute_get regName
  | getregs => exact mute_getregs
  | help => exact mute_forM _ fun _ => mute_say _
  | list => exact mute_bind mute_read fun _ => mute_forM _ fun _ => mute_say _
  | load fileName => exact mute_load w fileName
  | run => exact mute_run w fuel
  | vmmap => exact mute_vmmap w
  | set regName val => exact mute_set regName val
  | si => exact (mute_checkProcess w fuel).1
  | start => exact mute_start w

/-! Sessions. -/

theorem reachable_innocent {w : World} {s : Session} (reached : Reachable (debugger w) s) : Innocent s := by
  refine reached.invariant Innocent ?_ ?_
  · rintro s ⟨elf,sect,name,rfl⟩
    exact ⟨rfl,nofun⟩
  · rintro s ⟨fuel,command⟩ t innocent _ moved
    have ok : (command.perform w fuel).run s = .done () t := moved
    have stays : command ≠ .exit := by
      rintro rfl
      exact quit_never s t ok
    exact mute_perform w fuel stays s t innocent (by rw [ok]; rfl)

/-- A session that a command ends at `t` has sent a signal only if that command is exit and there was a
pid to send it to. That pid is the stopped child's unless a signal has ended the child before. -/
structure EndsWith (s : Session) (command : Command) (t : Session) : Prop where
  quits : command = .exit → t.sent = if s.sdb.state = .running then [(s.sdb.pid,SIGTERM)] else []
  fails : command ≠ .exit → t.sent = []
  aimed : (∀ x ∈ t.sent, ∃ c, t.process = .stopped x.1 c) ↔ (command = .exit → s.unharmed)

theorem quit_sends {s t : Session} {code : Nat} (phase : Phase s) (innocent : Innocent s) (ended : quit.run s = .exited code t) :
    t.sent = (if s.sdb.state = .running then [(s.sdb.pid,SIGTERM)] else []) ∧
      ((∀ x ∈ t.sent, ∃ c, t.process = .stopped x.1 c) ↔ s.unharmed) := by
  simp only [quit,bind_run,read_run,andThen_done,ite_run,modify_run,exit_run] at ended
  cases phase with
  | idle state pid preAddr preVal childless empty unharmed =>
    have none : ¬ 0 < s.sdb.pid := by omega
    rw [if_neg none] at ended
    cases ended
    rw [if_neg state,innocent.sent]
    exact ⟨rfl,fun _ => unharmed,fun _ => List.forall_mem_nil _⟩
  | live c state stopped unharmed =>
    have some : 0 < s.sdb.pid := innocent.forked _ (by rw [stopped]; rfl)
    rw [if_pos some] at ended
    cases ended
    rw [if_pos state,innocent.sent]
    exact ⟨rfl,fun _ => unharmed,fun _ => List.forall_mem_singleton.mpr ⟨c,stopped⟩⟩
  | dead signal state killed harmed =>
    have some : 0 < s.sdb.pid := innocent.forked _ (by rw [killed]; rfl)
    rw [if_pos some] at ended
    cases ended
    rw [if_pos state,innocent.sent]
    refine ⟨rfl,fun aimed => ?_,fun calm => absurd calm harmed⟩
    obtain ⟨c,stopped⟩ := List.forall_mem_singleton.mp aimed
    rw [killed] at stopped
    cases stopped

/-- At every prompt no signal is sent yet, and a session that ends has sent at most one: exit
sends SIGTERM to the pid that sdb holds, which is its own stopped child's exactly when no signal has
ended a child before. -/
theorem signals_sent (w : World) (s : Session) (reached : Reachable (debugger w) s) : s.sent = [] ∧
    ∀ command fuel code t, (command.perform w fuel).run s = .exited code t → EndsWith s command t := by
  have innocent := reachable_innocent reached
  refine ⟨innocent.sent,fun command fuel code t ended => ?_⟩
  by_cases leaves : command = .exit
  · subst leaves
    obtain ⟨sent,aimed⟩ := quit_sends (reachable_phase reached) innocent ended
    exact ⟨fun _ => sent,fun stays => absurd rfl stays,aimed.trans ⟨fun unharmed _ => unharmed,fun unharmed => unharmed rfl⟩⟩
  · have silent : t.sent = [] := (mute_perform w fuel leaves s t innocent (by rw [ended]; rfl)).sent
    refine ⟨fun exits => absurd exits leaves,fun _ => silent,fun _ exits => absurd exits leaves,fun _ => ?_⟩
    rw [silent]
    exact List.forall_mem_nil _

/-- The child has crashed, and SIGTERM goes to its pid all the same. -/
theorem signals_sent_crash : EndsWith (sampleSession crashing [.load "a.out",.start,.cont]) .exit
    {sampleSession crashing [.load "a.out",.start,.cont] with sent := [(7,SIGTERM)]} :=
  (signals_sent crashing _ (sample_reachable crashing _)).2 .exit 0 0 _ rfl

end Unixprog.Sdb
