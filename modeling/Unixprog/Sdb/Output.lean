import Unixprog.Sdb.Lifecycle

/-! No method looks at what the debugger has printed: text printed earlier stays in
front of what an operation adds and changes nothing else. -/
namespace Unixprog.Sdb
open Words

def Session.after (before : List Message) (s : Session) : Session := {s with out := before ++ s.out}

def Outcome.after {α : Type} (before : List Message) : Outcome α → Outcome α
  | .done value t => .done value (t.after before)
  | .exited code t => .exited code (t.after before)
  | .waiting => .waiting

def Blind {α : Type} (op : Op α) : Prop := ∀ before s, op.run (s.after before) = (op.run s).after before

@[simp] theorem after_tracee (before : List Message) (s : Session) : (s.after before).tracee = s.tracee := rfl

section Rules
variable {α β : Type}

theorem blind_pure (value : α) : Blind (pure value : Op α) := fun _ _ => rfl

theorem blind_wait : Blind (wait : Op α) := fun _ _ => rfl

theorem blind_exit (code : Nat) : Blind (exit code : Op α) := fun _ _ => rfl

theorem blind_modify (f : Session → Session) (apart : ∀ before s, f (s.after before) = (f s).after before) :
    Blind (modify f) := by
  intro before s
  rw [modify_run,modify_run,apart]
  rfl

theorem blind_bind {first : Op α} {next : α → Op β} (one : Blind first) (two : ∀ a, Blind (next a)) :
    Blind (first >>= next) := by
  intro before s
  rw [bind_run,bind_run,one before s]
  cases first.run s with
  | done a t => exact two a before t
  | exited code t => rfl
  | waiting => rfl

theorem blind_read {next : Session → Op β} (apart : ∀ before s, next (s.after before) = next s)
    (rest : ∀ s, Blind (next s)) : Blind (read >>= next) := by
  intro before s
  have same := rest s before s
  rw [← apart before s] at same
  rw [bind_run,bind_run,read_run,read_run,andThen_done,andThen_done,same,apart]

theorem blind_ite (c : Prop) [Decidable c] {first second : Op β} (one : Blind first) (two : Blind second) :
    Blind (if c then first else second) := by
  split
  · exact one
  · exact two

theorem blind_say (message : Message) : Blind (say message) := by
  apply blind_modify
  intro before s
  simp [Session.say,Session.after]

theorem blind_debug (text : String) : Blind (debug text) := blind_say _

theorem blind_error (text : String) (line : Nat) : Blind (error text line : Op α) :=
  blind_bind (blind_say _) fun _ => blind_exit 1

theorem blind_unless {op : Op Bool} {text : String} {line : Nat} (blind : Blind op) :
    Blind (do unless ← op do error text line) := by
  apply blind_bind blind
  intro ok
  cases ok with
  | true => exact blind_pure ()
  | false => exact blind_error _ _

theorem blind_forM (items : List α) {f : α → Op Unit} (each : ∀ item, Blind (f item)) : Blind (items.forM f) := by
  induction items with
  | nil => exact blind_pure ()
  | cons item items ih => exact blind_bind (each item) fun _ => ih

end Rules

theorem blind_onSdb (f : SDB → SDB) : Blind (onSdb f) := blind_modify _ fun _ _ => rfl

/-! The requests. -/

theorem blind_peekText (addr : Word) : Blind (peekText addr) := fun _ _ => rfl

theorem blind_getRegs : Blind getRegs := fun _ _ => rfl

theorem blind_setOptions : Blind setOptions := fun _ _ => rfl

theorem blind_pokeText (addr data : Word) : Blind (pokeText addr data) := by
  intro before s
  simp only [pokeText,after_tracee]
  cases s.tracee with
  | none => rfl
  | some c =>
    dsimp only
    cases store c.mem addr data with
    | none => rfl
    | some m => rfl

theorem blind_setRegs (regs : Registers) : Blind (setRegs regs) := by
  intro before s
  simp only [setRegs,after_tracee]
  cases s.tracee with
  | none => rfl
  | some c => rfl

theorem blind_letRun (request : Request) : Blind (letRun request) := by
  intro before s
  simp only [letRun,after_tracee]
  cases s.tracee with
  | none => rfl
  | some c => rfl

theorem blind_fopen {α : Type} (w : World) (content : Option α) : Blind (fopen w content) := by
  intro before s
  have same : (s.after before).opens w content = s.opens w content := rfl
  simp only [fopen,same]
  cases s.opens w content with
  | none => rfl
  | some found => rfl

theorem blind_fclose : Blind fclose := blind_modify _ fun _ _ => rfl

theorem blind_waitpid (w : World) (fuel : Nat) : Blind (waitpid w fuel) := by
  intro before s
  obtain ⟨sdb,process,clock,out,sent,statuses,opened⟩ := s
  cases process with
  | unborn => rfl
  | ended pid ending => rfl
  | stopped pid c =>
    simp only [waitpid,Session.after]
    split
    · rfl
    · rfl
  | resumed pid request c =>
    simp only [waitpid,Session.after]
    split
    · cases w.resume fuel clock request c with
      | none => rfl
      | some report =>
        cases report with
        | ended ending => rfl
        | stopped signal c => rfl
    · rfl

/-! The methods. -/

section Methods
variable (w : World)

theorem blind_getCode (fileName : String) : Blind (getCode w fileName) := by
  refine blind_bind (blind_fopen w _) fun content => ?_
  cases content with
  | none => exact blind_exit 139
  | some bytes =>
    have rest := blind_bind (blind_onSdb fun d => {d with codeSize := bytes.length,codeText := some bytes}) fun _ =>
      blind_fclose
    exact blind_ite _ (blind_bind (blind_exit 139) fun _ => rest) rest

theorem blind_load (fileName : String) : Blind (load w fileName) := by
  refine blind_read (fun _ _ => rfl) fun s => blind_ite _ (blind_debug _)
    (blind_bind (blind_onSdb _) fun _ => blind_bind (blind_fopen w _) fun content => ?_)
  cases content with
  | none => exact blind_debug _
  | some bytes =>
    refine blind_bind (blind_onSdb _) fun _ => blind_read (fun _ _ => rfl) fun u => blind_ite _ (blind_debug _) ?_
    refine blind_read (fun _ _ => rfl) fun v => ?_
    have rest (f : SDB → SDB) (text : String) : Blind (do onSdb f; debug text; fclose; getCode w fileName) :=
      blind_bind (blind_onSdb _) fun _ => blind_bind (blind_debug _) fun _ => blind_bind blind_fclose fun _ =>
        blind_getCode w fileName
    exact blind_ite _ (blind_bind (blind_exit 139) fun _ => rest _ _) (rest _ _)

theorem blind_spawn (pid : ℕ+) : Blind (spawn w pid) := by
  refine blind_bind (blind_modify _ fun _ _ => rfl) fun _ => blind_read (fun _ _ => rfl) fun s => ?_
  cases w.exec s.sdb.programName with
  | none => exact blind_bind (blind_say _) fun _ => blind_modify _ fun _ _ => rfl
  | some c => exact blind_modify _ fun _ _ => rfl

theorem blind_rearm (addr : Word) : Blind (rearm addr) :=
  blind_read (fun _ _ => rfl) fun _ => blind_bind (blind_peekText _) fun _ => blind_unless (blind_pokeText _ _)

theorem blind_start : Blind (start w) := by
  refine blind_read (fun _ _ => rfl) fun s => blind_ite _ (blind_debug _) ?_
  cases w.fork s.clock with
  | none => exact blind_error _ _
  | some pid =>
    refine blind_bind (blind_spawn w pid) fun _ => blind_bind blind_setOptions fun ok => ?_
    have rest : Blind (do
        debug s!"pid {pid.val}"
        onSdb fun d => {d with state := .running}
        let s ← read
        s.sdb.addrList.toList.forM fun entry => rearm entry.1) :=
      blind_bind (blind_debug _) fun _ => blind_bind (blind_onSdb _) fun _ =>
        blind_read (fun _ _ => rfl) fun _ => blind_forM _ fun entry => blind_rearm entry.1
    cases ok with
    | true => exact rest
    | false => exact blind_bind (blind_error _ _) fun _ => rest

theorem blind_setBreak (addr : Word) : Blind (setBreak addr) :=
  blind_read (fun _ _ => rfl) fun _ => blind_ite _ (blind_debug _) (blind_ite _ (blind_debug _) (blind_ite _ (blind_pure ())
    (blind_bind (blind_peekText _) fun _ => blind_bind (blind_onSdb _) fun _ => blind_unless (blind_pokeText _ _))))

theorem blind_restoreBp : Blind restoreBp := by
  refine blind_read (fun _ _ => rfl) fun s => blind_ite _ ?_ (blind_pure ())
  refine blind_bind (blind_say _) fun _ => blind_bind (blind_peekText _) fun code =>
    blind_bind (blind_pokeText _ _) fun ok => ?_
  cases ok with
  | true => exact blind_onSdb fun d => {d with preAddr := 0}
  | false => exact blind_bind (blind_error _ _) fun _ => blind_onSdb _

theorem blind_disasm (addr : Word) (len : Nat) : Blind (disasm w addr len) := by
  refine blind_read (fun _ _ => rfl) fun s => blind_ite _ (blind_debug _) (blind_ite _ (blind_debug _)
    (blind_ite _ (blind_error _ _) ?_))
  split
  · exact blind_debug _
  · exact blind_forM _ blind_say

theorem blind_reportHit (regs : Registers) (addr value : Word) : Blind (reportHit w regs addr value) :=
  blind_bind (blind_say _) fun _ => blind_bind (blind_disasm w addr 1) fun _ => blind_bind (blind_peekText _) fun _ =>
    blind_bind (blind_onSdb _) fun _ => blind_unless (blind_setRegs _)

theorem blind_liftTrap (line : Nat) : Blind (liftTrap line) :=
  blind_read (fun _ _ => rfl) fun _ => blind_ite _ (blind_unless (blind_pokeText _ _)) (blind_pure ())

theorem blind_resuming (fuel : Nat) : Blind (si w fuel) ∧ Blind (checkProcess w fuel) := by
  induction fuel with
  | zero =>
    unfold si checkProcess
    exact ⟨blind_wait,blind_wait⟩
  | succ fuel ih =>
    obtain ⟨step,check⟩ := ih
    constructor
    · unfold si
      refine blind_read (fun _ _ => rfl) fun s => blind_ite _ (blind_debug _) (blind_bind (blind_liftTrap 183) fun _ =>
        blind_bind (blind_letRun _) fun ok => ?_)
      cases ok with
      | true => exact check
      | false => exact blind_bind (blind_error _ _) fun _ => check
    · unfold checkProcess
      refine blind_bind (blind_waitpid w (fuel+1)) fun report => blind_read (fun _ _ => rfl) fun s => ?_
      cases report with
      | none => exact blind_error _ _
      | some report =>
        cases report with
        | ended ending =>
          cases ending with
          | exited code => exact blind_bind (blind_debug _) fun _ => blind_onSdb _
          | signaled signal => exact blind_debug _
        | stopped signal c =>
          refine blind_ite _ (blind_bind blind_restoreBp fun _ => blind_bind blind_getRegs fun regs => ?_) (blind_debug _)
          cases regs with
          | none => exact blind_error _ _
          | some regs =>
            dsimp only
            cases s.sdb.addrList[regs.rip-1]? with
            | some value => exact blind_reportHit w regs _ value
            | none => exact blind_ite _ step (blind_pure ())

theorem blind_cont (fuel : Nat) : Blind (cont w fuel) := by
  refine blind_read (fun _ _ => rfl) fun s => blind_ite _ (blind_debug _) (blind_bind (blind_liftTrap 198) fun _ =>
    blind_bind (blind_letRun _) fun ok => ?_)
  cases ok with
  | true => exact (blind_resuming w fuel).2
  | false => exact blind_bind (blind_error _ _) fun _ => (blind_resuming w fuel).2

theorem blind_getregs : Blind getregs := by
  refine blind_read (fun _ _ => rfl) fun s => blind_ite _ (blind_debug _) (blind_bind blind_getRegs fun regs => ?_)
  cases regs with
  | none => exact blind_error _ _
  | some regs => exact blind_say _

theorem blind_del (id : Int) : Blind (del id) := by
  refine blind_read (fun _ _ => rfl) fun s => blind_ite _ (blind_debug _) (blind_ite _ (blind_debug _) ?_)
  cases s.sdb.addrList.toList[id.toNat]? with
  | none => exact blind_debug _
  | some entry =>
    have rest : Blind (do
        onSdb fun d => {d with addrList := d.addrList.erase entry.1}
        debug s!"breakpoint {id} deleted.") := blind_bind (blind_onSdb _) fun _ => blind_debug _
    refine blind_bind (blind_pokeText _ _) fun ok => ?_
    cases ok with
    | true => exact rest
    | false => exact blind_bind (blind_error _ _) fun _ => rest

theorem blind_dump (addr : Word) : Blind (dump addr) :=
  blind_read (fun _ _ => rfl) fun _ => blind_ite _ (blind_debug _) (blind_ite _ (blind_debug _)
    (blind_forM _ fun _ => blind_bind (blind_peekText _) fun _ => blind_bind (blind_peekText _) fun _ => blind_say _))

theorem blind_get (regName : String) : Blind (get regName) := by
  refine blind_read (fun _ _ => rfl) fun s => blind_ite _ (blind_debug _) (blind_bind blind_getRegs fun regs => ?_)
  cases regs with
  | none => exact blind_error _ _
  | some regs =>
    dsimp only
    cases getReg regs regName with
    | none => exact blind_pure ()
    | some value => exact blind_say _

theorem blind_run (fuel : Nat) : Blind (run w fuel) := by
  refine blind_read (fun _ _ => rfl) fun s => ?_
  cases s.sdb.state with
  | running => exact blind_bind (blind_debug _) fun _ => blind_cont w fuel
  | loaded => exact blind_bind (blind_start w) fun _ => blind_cont w fuel
  | notLoaded => exact blind_debug _

theorem blind_set (regName : String) (val : Word) : Blind (set regName val) := by
  refine blind_bind blind_getRegs fun regs => ?_
  cases regs with
  | none => exact blind_error _ _
  | some regs =>
    dsimp only
    cases setReg regs val regName with
    | none => exact blind_pure ()
    | some regs =>
      have rest : Blind (do unless ← setRegs regs do error "ptrace: PTRACE_SETREGS failed" 494) :=
        blind_unless (blind_setRegs _)
      exact blind_ite _ (blind_bind (blind_onSdb _) fun _ => rest) rest

theorem blind_vmmap : Blind (vmmap w) := by
  refine blind_read (fun _ _ => rfl) fun s => blind_ite _ (blind_debug _) (blind_bind (blind_fopen w _) fun lines => ?_)
  cases lines with
  | none => exact blind_error _ _
  | some lines => exact blind_forM _ blind_say

theorem blind_quit : Blind quit :=
  blind_read (fun _ _ => rfl) fun _ => blind_ite _ (blind_bind (blind_modify _ fun _ _ => rfl) fun _ => blind_exit 0)
    (blind_exit 0)

theorem blind_perform (fuel : Nat) (command : Command) : Blind (command.perform w fuel) := by
  cases command with
  | «break» addr => exact blind_setBreak addr
  | cont => exact blind_cont w fuel
  | delete id => exact blind_del id
  | disasm addr => exact blind_disasm w addr 10
  | dump addr => exact blind_dump addr
  | exit => exact blind_quit
  | get regName => exact blind_get regName
  | getregs => exact blind_getregs
  | help => exact blind_forM _ fun _ => blind_say _
  | list => exact blind_read (fun _ _ => rfl) fun _ => blind_forM _ fun _ => blind_say _
  | load fileName => exact blind_load w fileName
  | run => exact blind_run w fuel
  | vmmap => exact blind_vmmap w
  | set regName val => exact blind_set regName val
  | si => exact (blind_resuming w fuel).1
  | start => exact blind_start w

theorem blind_script (fuel : Nat) (commands : List Command) : Blind (script w fuel commands) :=
  blind_forM _ fun command => blind_perform w fuel command

end Methods

end Unixprog.Sdb
