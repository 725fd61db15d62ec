import Unixprog.Sdb.Main
import Unixprog.Sdb.Depth

/-! Command lines in states that do not admit them, and the ways in which a command
line can end the debugger. -/
namespace Unixprog.Sdb
open Words CStrings Runs

def kernelErrors : List String := [
  "ptrace: PTRACE_SETOPTIONS failed.",
  "ptrace: PTRACE_POKETEXT failed",
  "ptrace: PTRACE_SINGLESTEP failed",
  "ptrace: PTRACE_CONT failed",
  "ptrace: PTRACE_GETREGS failed",
  "ptrace: PTRACE_SETREGS failed"]

def Session.Refused (t : Session) : Prop :=
  t.tracee.isSome ∧ ∃ before text line, t.out = before ++ [.error text line] ∧ text ∈ kernelErrors

def Session.Live (s : Session) : Prop := s.tracee.isSome

/-- The maps file of a live child is not there to be opened. -/
def Session.Mapless (w : World) (t : Session) : Prop :=
  t.Live ∧ w.maps t.sdb.pid = none ∧ ∃ before line, t.out = before ++ [.error "fopen failed" line]

/-- From a session with `pre` the operation ends the debugger only by a refused call,
and where it returns, `post` holds. -/
structure Careful {α : Type} (pre : Session → Prop) (op : Op α) (post : α → Session → Prop) : Prop where
  exits : ∀ s code t, pre s → op.run s = .exited code t → t.Refused
  returns : ∀ s a t, pre s → op.run s = .done a t → post a t

section Rules
variable {α β : Type} {pre : Session → Prop} {middle : α → Session → Prop} {post : β → Session → Prop}

theorem Careful.weaken {stronger : Session → Prop} {weaker : α → Session → Prop} {op : Op α}
    (careful : Careful pre op middle) (less : ∀ s, stronger s → pre s) (more : ∀ a s, middle a s → weaker a s) :
    Careful stronger op weaker :=
  ⟨fun s code t holds => careful.exits s code t (less s holds),
    fun s a t holds ok => more a t (careful.returns s a t (less s holds) ok)⟩

theorem careful_bind {first : Op α} {next : α → Op β} (one : Careful pre first middle)
    (two : ∀ a, Careful (middle a) (next a) post) : Careful pre (first >>= next) post := by
  constructor
  case exits =>
    intro s code t holds ended
    rw [bind_run] at ended
    cases ran : first.run s with
    | done a u =>
      rw [ran] at ended
      exact (two a).exits u code t (one.returns s a u holds ran) ended
    | exited code' u =>
      rw [ran] at ended
      cases ended
      exact one.exits s code t holds ran
    | waiting => simp [ran] at ended
  case returns =>
    intro s b t holds ok
    obtain ⟨a,u,begun,rest⟩ := bind_done _ _ _ _ _ ok
    exact (two a).returns u b t (one.returns s a u holds begun) rest

theorem careful_read {next : Session → Op β}
    (rest : ∀ s, pre s → Careful (· = s) (next s) post) : Careful pre (read >>= next) post := by
  constructor
  case exits =>
    intro s code t holds ended
    exact (rest s holds).exits s code t rfl ended
  case returns =>
    intro s b t holds ok
    exact (rest s holds).returns s b t rfl ok

theorem careful_pure (b : β) (holds : ∀ s, pre s → post b s) : Careful pre (pure b : Op β) post := by
  constructor
  case exits =>
    intro s code t _ ended
    cases ended
  case returns =>
    intro s a t started ok
    cases ok
    exact holds s started

theorem careful_modify {post : Unit → Session → Prop} (f : Session → Session) (holds : ∀ s, pre s → post () (f s)) :
    Careful pre (modify f) post := by
  constructor
  case exits =>
    intro s code t _ ended
    cases ended
  case returns =>
    intro s a t started ok
    cases ok
    exact holds s started

theorem careful_error {text : String} (line : Nat) (kernel : text ∈ kernelErrors) (live : ∀ s, pre s → s.Live) :
    Careful pre (error text line : Op β) post := by
  constructor
  case exits =>
    intro s code t holds ended
    simp only [error_run,Outcome.exited.injEq] at ended
    rw [← ended.2]
    exact ⟨live s holds,s.out,text,line,rfl,kernel⟩
  case returns =>
    intro s b t _ ok
    simp at ok

theorem careful_ite (c : Prop) [Decidable c] {first second : Op β} (one : c → Careful pre first post)
    (two : ¬ c → Careful pre second post) : Careful pre (if c then first else second) post := by
  split
  next holds => exact one holds
  next fails => exact two fails

theorem careful_forM {post : Session → Prop} (items : List α) {f : α → Op Unit}
    (each : ∀ item, Careful post (f item) fun _ => post) : Careful post (items.forM f) fun _ => post := by
  induction items with
  | nil => exact careful_pure () fun s holds => holds
  | cons item items ih => exact careful_bind (each item) fun _ => ih

end Rules

theorem careful_say {pre : Session → Prop} {post : Unit → Session → Prop} (message : Message)
    (holds : ∀ s, pre s → post () (s.say message)) : Careful pre (say message) post := careful_modify _ holds

abbrev Steady {α : Type} (op : Op α) : Prop := Careful Session.Live op fun _ => Session.Live

theorem steady_say (message : Message) : Steady (say message) := careful_say message fun _ live => live

theorem steady_debug (text : String) : Steady (debug text) := steady_say _

theorem steady_error {α : Type} {text : String} (line : Nat) (kernel : text ∈ kernelErrors) :
    Steady (error text line : Op α) := careful_error line kernel fun _ live => live

theorem live_iff (s : Session) : s.Live ↔ ∃ c, s.process = .stopped s.sdb.pid c := by
  simp only [Session.Live,Option.isSome_iff_exists,tracee_some]

theorem steady_onSdb (f : SDB → SDB) (pid : ∀ d, (f d).pid = d.pid) : Steady (onSdb f) := by
  refine careful_modify _ fun s live => ?_
  obtain ⟨c,stopped⟩ := (live_iff s).mp live
  exact (live_iff _).mpr ⟨c,by simp only [stopped,pid]⟩

theorem careful_peekText (pre : Session → Prop) (addr : Word) : Careful pre (peekText addr) fun _ => pre := by
  constructor
  case exits =>
    intro s code t _ ended
    cases ended
  case returns =>
    intro s a t holds ok
    cases ok
    exact holds

theorem steady_pokeText (addr data : Word) : Steady (pokeText addr data) := by
  constructor
  case exits =>
    intro s code t live ended
    obtain ⟨c,stopped⟩ := (live_iff s).mp live
    by_cases mapped : Mapped c.mem addr
    · simp [pokeText_mapped stopped addr data mapped] at ended
    · simp [pokeText_unmapped stopped addr data mapped] at ended
  case returns =>
    intro s a t live ok
    obtain ⟨c,stopped⟩ := (live_iff s).mp live
    by_cases mapped : Mapped c.mem addr
    · rw [pokeText_mapped stopped addr data mapped] at ok
      cases ok
      exact (live_iff _).mpr ⟨_,rfl⟩
    · rw [pokeText_unmapped stopped addr data mapped] at ok
      cases ok
      exact live

theorem careful_getRegs : Careful Session.Live getRegs fun regs s => regs.isSome ∧ s.Live := by
  constructor
  case exits =>
    intro s code t _ ended
    cases ended
  case returns =>
    intro s a t live ok
    obtain ⟨c,stopped⟩ := (live_iff s).mp live
    rw [getRegs_live stopped] at ok
    cases ok
    exact ⟨rfl,live⟩

theorem careful_setRegs (regs : Registers) :
    Careful Session.Live (setRegs regs) fun ok s => ok = true ∧ s.Live := by
  constructor
  case exits =>
    intro s code t live ended
    obtain ⟨c,stopped⟩ := (live_iff s).mp live
    simp [setRegs_live stopped] at ended
  case returns =>
    intro s a t live ok
    obtain ⟨c,stopped⟩ := (live_iff s).mp live
    rw [setRegs_live stopped] at ok
    cases ok
    exact ⟨rfl,(live_iff _).mpr ⟨_,rfl⟩⟩

def Session.Resumed (s : Session) : Prop := ∃ request c, s.process = .resumed s.sdb.pid request c

theorem careful_letRun (request : Request) :
    Careful Session.Live (letRun request) fun ok s => ok = true ∧ s.Resumed := by
  constructor
  case exits =>
    intro s code t live ended
    obtain ⟨c,stopped⟩ := (live_iff s).mp live
    simp [letRun_live stopped] at ended
  case returns =>
    intro s a t live ok
    obtain ⟨c,stopped⟩ := (live_iff s).mp live
    rw [letRun_live stopped] at ok
    cases ok
    exact ⟨rfl,request,c,rfl⟩

theorem careful_waitpid (w : World) (fuel : Nat) :
    Careful Session.Resumed (waitpid w fuel) fun report s =>
      (∃ ending, report = some (.ended ending)) ∨ (∃ signal c, report = some (.stopped signal c)) ∧ s.Live := by
  constructor
  case exits =>
    rintro s code t ⟨request,c,resumed⟩ ended
    simp only [waitpid,resumed,if_true] at ended
    split at ended <;> cases ended
  case returns =>
    rintro s a t ⟨request,c,resumed⟩ ok
    simp only [waitpid,resumed,if_true] at ok
    split at ok
    · cases ok
    · cases ok
      exact .inl ⟨_,rfl⟩
    · cases ok
      exact .inr ⟨⟨_,_,rfl⟩,(live_iff _).mpr ⟨_,rfl⟩⟩

theorem steady_unless {op : Op Bool} {text : String} (line : Nat) (kernel : text ∈ kernelErrors) (steady : Steady op) :
    Steady (do unless ← op do error text line) := by
  refine careful_bind steady fun ok => ?_
  cases ok with
  | true => exact careful_pure () fun s live => live
  | false => exact steady_error line kernel

theorem careful_here {α : Type} {op : Op α} {post : α → Session → Prop} {s : Session} (live : s.Live)
    (careful : Careful Session.Live op post) : Careful (· = s) op post :=
  careful.weaken (fun _ same => same ▸ live) fun _ _ holds => holds

theorem steady_read {α : Type} {next : Session → Op α} {post : α → Session → Prop}
    (rest : ∀ s, Careful Session.Live (next s) post) : Careful Session.Live (read >>= next) post :=
  careful_read fun s live => careful_here live (rest s)

theorem steady_pure {α : Type} (a : α) : Steady (pure a : Op α) := careful_pure a fun _ live => live

theorem steady_restoreBp : Steady restoreBp := by
  refine steady_read fun s => careful_ite _ (fun _ => ?_) fun _ => steady_pure ()
  refine careful_bind (steady_say _) fun _ => careful_bind (careful_peekText _ _) fun code => ?_
  refine careful_bind (steady_pokeText _ _) fun ok => ?_
  cases ok with
  | true => exact steady_onSdb (fun d => {d with preAddr := 0}) fun d => rfl
  | false => exact careful_bind (steady_error _ (by decide)) fun _ => steady_onSdb _ fun d => rfl

theorem steady_liftTrap (line : Nat) : Steady (liftTrap line) :=
  steady_read fun s => careful_ite _ (fun _ => steady_unless line (by decide) (steady_pokeText _ _))
    fun _ => steady_pure ()

theorem careful_disasm {w : World} (opens : w.csOpen = true) (addr : Word) (len : Nat) {pre : Session → Prop}
    (quiet : ∀ s message, pre s → pre (s.say message)) : Careful pre (disasm w addr len) fun _ => pre := by
  have prints (message : Message) : Careful pre (say message) fun _ => pre := careful_say message fun s => quiet s message
  refine careful_read fun s holds => Careful.weaken ?_ (fun _ same => same ▸ holds) fun _ _ holds => holds
  refine careful_ite _ (fun _ => prints _) fun _ => careful_ite _ (fun _ => prints _) fun _ => ?_
  simp only [opens,Bool.not_true,Bool.false_eq_true,if_false]
  split
  · exact prints _
  · exact careful_forM _ prints

theorem steady_reportHit {w : World} (opens : w.csOpen = true) (regs : Registers) (addr value : Word) :
    Steady (reportHit w regs addr value) := by
  refine careful_bind (steady_say _) fun _ => careful_bind (careful_disasm opens _ _ fun _ _ live => live) fun _ =>
    careful_bind (careful_peekText _ _) fun code => careful_bind (steady_onSdb _ fun d => rfl) fun _ => ?_
  exact steady_unless _ (by decide) ((careful_setRegs _).weaken (fun _ live => live) fun _ _ both => both.2)

theorem Careful.ends {α : Type} {op : Op α} {pre : Session → Prop} {post : α → Session → Prop}
    (careful : Careful pre op post) : Careful pre op fun _ _ => True :=
  careful.weaken (fun _ holds => holds) fun _ _ _ => trivial

theorem careful_debug (pre : Session → Prop) (text : String) : Careful pre (debug text) fun _ _ => True :=
  careful_modify _ fun _ _ => trivial

theorem careful_resuming {w : World} (opens : w.csOpen = true) (fuel : Nat) :
    Careful Session.Live (si w fuel) (fun _ _ => True) ∧
      Careful Session.Resumed (checkProcess w fuel) fun _ _ => True := by
  induction fuel with
  | zero =>
    unfold si checkProcess
    refine ⟨⟨?_,fun _ _ _ _ _ => trivial⟩,⟨?_,fun _ _ _ _ _ => trivial⟩⟩
    all_goals
      intro s code t _ ended
      cases ended
  | succ fuel ih =>
    obtain ⟨step,check⟩ := ih
    constructor
    · unfold si
      refine steady_read fun s => careful_ite _ (fun _ => (steady_debug _).weaken (fun _ live => live) fun _ _ _ => trivial)
        fun _ => careful_bind (steady_liftTrap 183) fun _ => careful_bind (careful_letRun _) fun ok => ?_
      cases ok with
      | true => exact check.weaken (fun s holds => holds.2) fun _ _ _ => trivial
      | false => exact ⟨fun s code t holds => by simp at holds,fun _ _ _ _ _ => trivial⟩
    · unfold checkProcess
      refine careful_bind (careful_waitpid w (fuel+1)) fun report => careful_read fun s holds => ?_
      obtain ⟨ending,rfl⟩ | ⟨⟨signal,c,rfl⟩,live⟩ := holds
      · cases ending with
        | exited code => exact careful_bind (careful_debug _ _) fun _ => careful_modify _ fun _ _ => trivial
        | signaled signal => exact careful_debug _ _
      · refine careful_here live (careful_ite _ (fun _ => ?_) fun _ => careful_debug _ _)
        refine careful_bind steady_restoreBp fun _ => careful_bind careful_getRegs fun regs => ?_
        cases regs with
        | none => exact ⟨fun s code t holds => by simp at holds,fun _ _ _ _ _ => trivial⟩
        | some regs =>
          have hit (value : Word) := (steady_reportHit opens regs (regs.rip-1) value).ends
          have nested : Careful Session.Live (if regs.rip ∈ s.sdb.addrList then si w fuel else pure ())
              fun _ _ => True := careful_ite _ (fun _ => step) fun _ => (steady_pure ()).ends
          refine Careful.weaken ?_ (fun t both => both.2) fun _ _ holds => holds
          dsimp only
          cases s.sdb.addrList[regs.rip-1]? with
          | some value => exact hit value
          | none => exact nested

theorem careful_cont {w : World} (opens : w.csOpen = true) (fuel : Nat) :
    Careful Session.Live (cont w fuel) fun _ _ => True := by
  refine steady_read fun s => careful_ite _ (fun _ => careful_debug _ _) fun _ =>
    careful_bind (steady_liftTrap 198) fun _ => careful_bind (careful_letRun _) fun ok => ?_
  cases ok with
  | true => exact (careful_resuming opens fuel).2.weaken (fun s holds => holds.2) fun _ _ holds => holds
  | false => exact ⟨fun s code t holds => by simp at holds,fun _ _ _ _ _ => trivial⟩

/-! The commands. -/

def Session.Up (s : Session) : Prop := s.Live ∧ s.sdb.state = .running

section Commands
variable {w : World} {pre : Session → Prop}

theorem careful_each {α : Type} (items : List α) {f : α → Op Unit}
    (each : ∀ item, Careful (fun _ => True) (f item) fun _ _ => True) : Careful pre (items.forM f) fun _ _ => True :=
  (careful_forM items each).weaken (fun _ _ => trivial) fun _ _ _ => trivial

/-- A load of this file, if it goes through, reads and writes only what is there. -/
def Loadable (w : World) (s : Session) (fileName : String) : Prop :=
  s.sdb.state = .notLoaded → ∀ bytes, s.opens w (w.file fileName) = some bytes → s.sdb.accepts bytes = true →
    s.sdb.faults w bytes = false

theorem careful_load (w : World) (fileName : String) :
    Careful (fun s => Loadable w s fileName) (load w fileName) fun _ _ => True := by
  refine ⟨fun s code t loadable ended => ?_,fun _ _ _ _ _ => trivial⟩
  cases load_loading w fileName s with
  | busy busy ran => simp [ran] at ended
  | missing idle missing ran => simp [ran] at ended
  | refused bytes idle found bad ran => simp [ran] at ended
  | loaded bytes idle found magic sound ran => simp [ran] at ended
  | faults bytes u idle found magic faults opened child ran => simp [loadable idle bytes found magic] at faults

theorem careful_help : Careful pre help fun _ _ => True := careful_each _ fun _ => careful_modify _ fun _ _ => trivial

theorem careful_list : Careful pre list fun _ _ => True :=
  careful_read fun _ _ => careful_each _ fun _ => careful_modify _ fun _ _ => trivial

theorem careful_dump (addr : Word) : Careful pre (dump addr) fun _ _ => True :=
  careful_read fun _ _ => careful_ite _ (fun _ => careful_debug _ _) fun _ =>
    careful_ite _ (fun _ => careful_debug _ _) fun _ => careful_each _ fun _ =>
      careful_bind (careful_peekText _ _) fun _ => careful_bind (careful_peekText _ _) fun _ =>
        careful_modify _ fun _ _ => trivial

theorem careful_setBreak (addr : Word) : Careful Session.Live (setBreak addr) fun _ _ => True := by
  refine steady_read fun s => careful_ite _ (fun _ => careful_debug _ _) fun _ =>
    careful_ite _ (fun _ => careful_debug _ _) fun _ => careful_ite _ (fun _ => (steady_pure ()).ends) fun _ => ?_
  refine careful_bind (careful_peekText _ _) fun code => careful_bind (steady_onSdb _ fun d => rfl) fun _ => ?_
  exact (steady_unless _ (by decide) (steady_pokeText _ _)).ends

theorem careful_del (id : Int) : Careful Session.Live (del id) fun _ _ => True := by
  refine steady_read fun s => careful_ite _ (fun _ => careful_debug _ _) fun _ =>
    careful_ite _ (fun _ => careful_debug _ _) fun _ => ?_
  cases s.sdb.addrList.toList[id.toNat]? with
  | none => exact careful_debug _ _
  | some entry =>
    refine careful_bind (steady_pokeText _ _) fun ok => ?_
    cases ok with
    | true => exact careful_bind (steady_onSdb _ fun d => rfl) fun _ => careful_debug _ _
    | false => exact careful_bind (steady_error _ (by decide)) fun _ =>
        careful_bind (steady_onSdb _ fun d => rfl) fun _ => careful_debug _ _

theorem careful_getregs : Careful Session.Live getregs fun _ _ => True := by
  refine steady_read fun s => careful_ite _ (fun _ => careful_debug _ _) fun _ =>
    careful_bind careful_getRegs fun regs => ?_
  cases regs with
  | none => exact ⟨fun s code t holds => by simp at holds,fun _ _ _ _ _ => trivial⟩
  | some regs => exact careful_modify _ fun _ _ => trivial

theorem careful_get (regName : String) : Careful Session.Live (get regName) fun _ _ => True := by
  refine steady_read fun s => careful_ite _ (fun _ => careful_debug _ _) fun _ =>
    careful_bind careful_getRegs fun regs => ?_
  cases regs with
  | none => exact ⟨fun s code t holds => by simp at holds,fun _ _ _ _ _ => trivial⟩
  | some regs =>
    dsimp only
    cases getReg regs regName with
    | none => exact careful_pure () fun _ _ => trivial
    | some value => exact careful_modify _ fun _ _ => trivial

theorem careful_set (regName : String) (val : Word) : Careful Session.Live (set regName val) fun _ _ => True := by
  refine careful_bind careful_getRegs fun regs => ?_
  cases regs with
  | none => exact ⟨fun s code t holds => by simp at holds,fun _ _ _ _ _ => trivial⟩
  | some regs =>
    refine Careful.weaken ?_ (fun t both => both.2) fun _ _ holds => holds
    dsimp only
    cases setReg regs val regName with
    | none => exact (steady_pure ()).ends
    | some regs =>
      have written : Careful Session.Live (do unless ← setRegs regs do error "ptrace: PTRACE_SETREGS failed" 494)
          fun _ _ => True :=
        (steady_unless _ (by decide) ((careful_setRegs regs).weaken (fun _ live => live) fun _ _ both => both.2)).ends
      dsimp only
      split
      · exact careful_bind (steady_onSdb (fun d => {d with preAddr := 0,preVal := 0}) fun d => rfl) fun _ => written
      · exact written

theorem careful_vmmap :
    Careful (fun s => s.sdb.state = .running → (s.opens w (w.maps s.sdb.pid)).isSome) (vmmap w) fun _ _ => True := by
  refine ⟨fun s code t found ended => ?_,fun _ _ _ _ _ => trivial⟩
  simp only [vmmap,bind_run,read_run,andThen_done,ite_run] at ended
  split at ended
  next idle => cases ended
  next running =>
    obtain ⟨lines,found⟩ := Option.isSome_iff_exists.mp (found (by simpa using running))
    rw [fopen_some found,andThen_done] at ended
    have prints : Careful (fun _ => True) ((lines.flatMap vmmapLine).forM say) fun _ _ => True :=
      careful_each _ fun _ => careful_modify _ fun _ _ => trivial
    exact prints.exits _ code t trivial ended

def Launchable (w : World) (s : Session) : Prop :=
  s.sdb.state = .loaded ∧ (w.fork s.clock).isSome ∧ (w.exec s.sdb.programName).isSome

theorem careful_spawn (pid : ℕ+) :
    Careful (fun s => (w.exec s.sdb.programName).isSome) (spawn w pid) fun _ => Session.Live := by
  constructor
  case exits =>
    intro s code t image ended
    obtain ⟨child,image⟩ := Option.isSome_iff_exists.mp image
    simp [spawn,image] at ended
  case returns =>
    intro s a t image ok
    obtain ⟨child,image⟩ := Option.isSome_iff_exists.mp image
    simp only [spawn,bind_run,modify_run,andThen_done,read_run,image,Outcome.done.injEq,true_and] at ok
    subst t
    exact (live_iff _).mpr ⟨child,rfl⟩

theorem steady_setOptions : Steady setOptions := by
  constructor
  case exits =>
    intro s code t _ ended
    cases ended
  case returns =>
    intro s a t live ok
    cases ok
    exact live

theorem steady_rearm (addr : Word) : Steady (rearm addr) :=
  steady_read fun _ => careful_bind (careful_peekText _ _) fun _ => steady_unless _ (by decide) (steady_pokeText _ _)

theorem careful_start : Careful (Launchable w) (start w) fun _ => Session.Live := by
  refine careful_read fun s launchable => ?_
  obtain ⟨loaded,forks,image⟩ := launchable
  obtain ⟨pid,forks⟩ := Option.isSome_iff_exists.mp forks
  simp only [loaded,ne_eq,not_true_eq_false,if_false,forks]
  refine careful_bind ((careful_spawn pid).weaken (fun t same => same ▸ image) fun _ _ live => live) fun _ => ?_
  refine careful_bind steady_setOptions fun ok => ?_
  have rest : Steady (do
      debug s!"pid {pid.val}"
      onSdb fun d => {d with state := .running}
      let s ← read
      s.sdb.addrList.toList.forM fun entry => rearm entry.1) :=
    careful_bind (steady_debug _) fun _ => careful_bind (steady_onSdb _ fun d => rfl) fun _ =>
      steady_read fun _ => careful_forM _ fun entry => steady_rearm entry.1
  cases ok with
  | true => exact rest
  | false => exact careful_bind (steady_error _ (by decide)) fun _ => rest

theorem careful_run (opens : w.csOpen = true) (fuel : Nat) :
    Careful (fun s => s.Up ∨ Launchable w s) (Sdb.run w fuel) fun _ _ => True := by
  refine careful_read fun s holds => ?_
  obtain ⟨live,running⟩ | launchable := holds
  · simp only [running]
    exact careful_here live (careful_bind (steady_debug _) fun _ => careful_cont opens fuel)
  · simp only [launchable.1]
    exact careful_bind (careful_start.weaken (fun t same => same ▸ launchable) fun _ _ live => live)
      fun _ => careful_cont opens fuel

theorem careful_perform (opens : w.csOpen = true) (fuel : Nat) (command : Command) (calm : command ≠ .exit)
    (other : command ≠ .vmmap) : Careful Session.Up (command.perform w fuel) fun _ _ => True := by
  have living {op : Op Unit} (careful : Careful Session.Live op fun _ _ => True) :
      Careful Session.Up op fun _ _ => True := careful.weaken (fun s up => up.1) fun _ _ holds => holds
  cases command with
  | «break» addr => exact living (careful_setBreak addr)
  | cont => exact living (careful_cont opens fuel)
  | delete id => exact living (careful_del id)
  | disasm addr => exact living (careful_disasm opens addr 10 fun _ _ live => live).ends
  | dump addr => exact careful_dump addr
  | exit => exact absurd rfl calm
  | get regName => exact living (careful_get regName)
  | getregs => exact living careful_getregs
  | help => exact careful_help
  | list => exact careful_list
  | load fileName =>
    exact (careful_load w fileName).weaken (fun s up idle => absurd up.2 (by simp [idle])) fun _ _ holds => holds
  | run => exact (careful_run opens fuel).weaken (fun s up => .inl up) fun _ _ holds => holds
  | vmmap => exact absurd rfl other
  | set regName val => exact living (careful_set regName val)
  | si => exact living (careful_resuming opens fuel).1
  | start =>
    refine careful_read fun s up => ?_
    simp only [up.2]
    exact careful_debug _ _

end Commands

/-! Which commands a state admits, and which need a child. -/

def Command.admitted (state : State) : Command → Bool
  | .load _ => state = .notLoaded
  | .start => state = .loaded
  | .run => state ≠ .notLoaded
  | .exit => true
  | .help => true
  | .list => true
  | _ => state = .running

/-- The command makes a request that has to succeed. For set that is so in every state. -/
def Command.needsChild (d : SDB) : Command → Bool
  | .break addr => d.state = .running && d.inText addr && !(decide (addr ∈ d.addrList))
  | .cont => d.state = .running
  | .delete id => d.state = .running && 0 ≤ id && (d.addrList.toList[id.toNat]?).isSome
  | .get _ => d.state = .running
  | .getregs => d.state = .running
  | .run => d.state = .running
  | .set _ _ => true
  | .si => d.state = .running
  | _ => false

theorem unadmitted_prints (w : World) (fuel : Nat) (command : Command) (s : Session)
    (barred : command.admitted s.sdb.state = false) (guarded : ∀ regName val, command ≠ .set regName val) :
    ∃ text, (command.perform w (fuel+1)).run s = .done () (s.say (.debug text)) := by
  cases command with
  | exit => cases barred
  | help => cases barred
  | list => cases barred
  | set regName val => exact absurd rfl (guarded regName val)
  | load fileName =>
    have busy : s.sdb.state ≠ .notLoaded := by simpa [Command.admitted] using barred
    exact ⟨_,by simp only [Command.perform,load,bind_run,read_run,andThen_done,if_pos busy]; rfl⟩
  | start =>
    have other : s.sdb.state ≠ .loaded := by simpa [Command.admitted] using barred
    exact ⟨_,by simp only [Command.perform,start,bind_run,read_run,andThen_done,if_pos other]; rfl⟩
  | run =>
    have idle : s.sdb.state = .notLoaded := by simpa [Command.admitted] using barred
    exact ⟨_,by simp only [Command.perform,Sdb.run,bind_run,read_run,andThen_done,idle]; rfl⟩
  | si =>
    have idle : s.sdb.state ≠ .running := by simpa [Command.admitted] using barred
    refine ⟨"state must be RUNNING",?_⟩
    simp only [Command.perform]
    unfold si
    simp only [bind_run,read_run,andThen_done,if_pos idle]
    rfl
  | _ =>
    have idle : s.sdb.state ≠ .running := by simpa [Command.admitted] using barred
    refine ⟨"state must be RUNNING",?_⟩
    simp only [Command.perform,setBreak,cont,del,disasm,dump,get,getregs,vmmap,bind_run,read_run,andThen_done,
      if_pos idle]
    rfl

def Dies {α : Type} (op : Op α) (s : Session) : Prop := ∃ code t, op.run s = .exited code t ∧ t.tracee = none

section Childless
variable {α β : Type} {w : World} {s : Session}

theorem dies_error (childless : s.tracee = none) (text : String) (line : Nat) : Dies (error text line : Op α) s :=
  ⟨1,_,error_run text line s,childless⟩

theorem dies_first {first : Op α} (next : α → Op β) (dies : Dies first s) : Dies (first >>= next) s := by
  obtain ⟨code,t,ended,childless⟩ := dies
  exact ⟨code,t,by rw [bind_run,ended]; rfl,childless⟩

theorem dies_next {first : Op α} {next : α → Op β} {a : α} {u : Session} (ok : first.run s = .done a u)
    (dies : Dies (next a) u) : Dies (first >>= next) s := by
  obtain ⟨code,t,ended,childless⟩ := dies
  exact ⟨code,t,by rw [bind_run,ok]; exact ended,childless⟩

theorem dies_poke (childless : s.tracee = none) (addr data : Word) (next : Bool → Op β)
    (dies : Dies (next false) s) : Dies (pokeText addr data >>= next) s :=
  dies_next (pokeText_childless childless addr data) dies

theorem dies_liftTrap (childless : s.tracee = none) (line : Nat) (next : Unit → Op β) (dies : Dies (next ()) s) :
    Dies (liftTrap line >>= next) s := by
  by_cases pending : s.sdb.preAddr ≠ 0
  · refine dies_first _ (dies_next (read_run s) ?_)
    rw [if_pos pending]
    exact dies_poke childless _ _ _ (dies_error childless _ _)
  · refine dies_next ?_ dies
    simp only [liftTrap,bind_run,read_run,andThen_done,if_neg pending,pure_run]

theorem dies_letRun (childless : s.tracee = none) (request : Request) (next : Bool → Op β)
    (dies : Dies (next false) s) : Dies (letRun request >>= next) s :=
  dies_next (letRun_childless childless request) dies

theorem dies_getRegs (childless : s.tracee = none) (next : Option Registers → Op β)
    (dies : Dies (next none) s) : Dies (getRegs >>= next) s :=
  dies_next (getRegs_childless childless) dies

theorem dies_running (running : s.sdb.state = .running) {op : Op β} {other : Op β} (dies : Dies op s) :
    Dies (if s.sdb.state ≠ .running then other else op) s := by
  rwa [if_neg (by simp [running])]

theorem dies_cont (childless : s.tracee = none) (running : s.sdb.state = .running) (fuel : Nat) :
    Dies (cont w fuel) s :=
  dies_next (read_run s) (dies_running running (dies_liftTrap childless 198 _
    (dies_letRun childless _ _ (dies_first _ (dies_error childless _ _)))))

theorem needsChild_dies (childless : s.tracee = none) (command : Command)
    (needs : command.needsChild s.sdb = true) : Dies (command.perform w 1) s := by
  cases command with
  | «break» addr =>
    obtain ⟨⟨running,inside⟩,fresh⟩ : (s.sdb.state = .running ∧ s.sdb.inText addr = true) ∧ addr ∉ s.sdb.addrList := by
      simpa [Command.needsChild] using needs
    refine dies_next (read_run s) (dies_running running ?_)
    rw [if_neg (by simp [inside]),if_neg fresh]
    refine dies_next (peekText_childless childless addr) (dies_next (onSdb_run _ s) ?_)
    exact dies_poke (by exact childless) _ _ _ (dies_error (by exact childless) _ _)
  | cont =>
    have running : s.sdb.state = .running := by simpa [Command.needsChild] using needs
    exact dies_cont childless running 1
  | delete id =>
    obtain ⟨⟨running,positive⟩,found⟩ : (s.sdb.state = .running ∧ 0 ≤ id) ∧
        (s.sdb.addrList.toList[id.toNat]?).isSome := by
      simpa [Command.needsChild] using needs
    obtain ⟨entry,found⟩ := Option.isSome_iff_exists.mp found
    refine dies_next (read_run s) (dies_running running ?_)
    rw [if_neg (by omega),found]
    exact dies_poke childless _ _ _ (dies_first _ (dies_error childless _ _))
  | get regName =>
    have running : s.sdb.state = .running := by simpa [Command.needsChild] using needs
    exact dies_next (read_run s) (dies_running running (dies_getRegs childless _ (dies_error childless _ _)))
  | getregs =>
    have running : s.sdb.state = .running := by simpa [Command.needsChild] using needs
    exact dies_next (read_run s) (dies_running running (dies_getRegs childless _ (dies_error childless _ _)))
  | run =>
    have running : s.sdb.state = .running := by simpa [Command.needsChild] using needs
    refine dies_next (read_run s) ?_
    rw [running]
    exact dies_next (debug_run _ s) (dies_cont (by exact childless) (by exact running) 1)
  | set regName val => exact dies_getRegs childless _ (dies_error childless _ _)
  | si =>
    have running : s.sdb.state = .running := by simpa [Command.needsChild] using needs
    simp only [Command.perform]
    unfold si
    exact dies_next (read_run s) (dies_running running (dies_liftTrap childless 183 _
      (dies_letRun childless _ _ (dies_first _ (dies_error childless _ _)))))
  | _ => cases needs

theorem dies_spawn (pid : ℕ+) (image : w.exec s.sdb.programName = none) (next : Unit → Op β)
    (dies : ∀ t, t.tracee = none → Dies (next ()) t) : Dies (spawn w pid >>= next) s := by
  obtain ⟨t,ok,gone⟩ : ∃ t, (spawn w pid).run s = .done () t ∧ t.tracee = none := by
    simp only [spawn,bind_run,modify_run,andThen_done,read_run,image,say_run]
    exact ⟨_,rfl,rfl⟩
  exact dies_next ok (dies t gone)

theorem dies_start (childless : s.tracee = none) (loaded : s.sdb.state = .loaded) (barred : ¬ Launchable w s) :
    Dies (start w) s := by
  refine dies_next (read_run s) ?_
  rw [if_neg (by simp [loaded])]
  cases forks : w.fork s.clock with
  | none => exact dies_error childless _ _
  | some pid =>
    have image : w.exec s.sdb.programName = none := by
      by_contra found
      exact barred ⟨loaded,by simp [forks],Option.isSome_iff_ne_none.mpr found⟩
    refine dies_spawn pid image _ fun t gone => ?_
    refine dies_next (a := false) (u := t) (by simp [setOptions,gone]) ?_
    exact dies_first _ (dies_error gone _ _)

end Childless

/-! Command lines. -/

/-- The command can be carried out: the child that it needs is there and stops as the
stack and the image bear it, vmmap can open the mappings, start finds a file to execute,
the file name fits into `program_name`, load and disasm read only what is there. -/
structure Bearable (w : World) (s : Session) (command : Command) : Prop where
  child : command.needsChild s.sdb = true → s.Live
  maps : command = .vmmap → s.sdb.state = .running →
    (s.opens w (w.maps s.sdb.pid)).isSome ∨ s.Live ∧ w.maps s.sdb.pid = none
  launch : command = .start ∨ command = .run → s.sdb.state = .loaded → Launchable w s
  fits : ∀ fileName, command = .load fileName → s.sdb.state = .notLoaded → fileName.length < 64
  loads : ∀ fileName, command = .load fileName → Loadable w s fileName
  lists : ∀ addr, command = .disasm addr → s.sdb.state = .running → Readable w s.sdb addr 10
  resumes : ∀ request c, command.request = some request → s.sdb.state = .running →
    s.process = .stopped s.sdb.pid c → Bounded w s.sdb s.clock request c
  continues : command = .run → s.sdb.state = .loaded → ∀ pid image m, w.fork s.clock = some pid →
    w.exec s.sdb.programName = some image →
    rearmAll s.sdb.preAddr (s.sdb.addrList.toList.map Prod.fst) image.mem = some m →
      Bounded w (s.sdb.afterStart pid) (s.clock+1) .cont {image with mem := m}

/-- A command that is not admitted returns and changes nothing, and no line but exit
ends the debugger while the kernel calls on a live child succeed: by an error, a fault,
a stack that is full or a file name past the end of `program_name`. -/
structure Withstands (w : World) (s : Session) (line : List Char) : Prop where
  inert : ∀ command, react line = .call command → command.admitted s.sdb.state = false →
    ∀ fuel, ∃ t, (obey w (fuel+1) line).run s = .done () t ∧ Unchanged s t
  lasting : (react line).quits = false →
    ∀ fuel code t, (obey w (fuel+1) line).run s = .exited code t → t.Refused ∨ t.Mapless w
  fits : ∀ fileName, react line = .call (.load fileName) → s.sdb.state = .notLoaded → fileName.length < 64
  lists : ∀ addr, react line = .call (.disasm addr) → s.sdb.state = .running → Readable w s.sdb addr 10
  /-- However long the child goes on. -/
  contained : ∀ command, react line = .call command → command.request ≠ none →
    ∀ k fuel t, (obey (w.until k) (fuel+1) line).run s = .done () t → Contained w s t

theorem not_live {s : Session} (gone : ¬ s.Live) : s.tracee = none := by
  simpa [Session.Live] using gone

theorem phase_childless {s : Session} (phase : Phase s) (idle : s.sdb.state ≠ .running) : s.tracee = none := by
  cases phase with
  | idle state pid preAddr preVal childless => exact childless
  | live c state => exact absurd state idle
  | dead signal state => exact absurd state idle

/-- What is contained from a session on that has only printed more is so from the session before. -/
theorem contained_later {w : World} {s u t : Session} (contained : Contained w s t) (statuses : u.statuses = s.statuses)
    (out : ∃ rows, u.out = s.out ++ rows) : Contained w u t := by
  obtain ⟨rows,out⟩ := out
  refine ⟨by rw [statuses]; exact contained.shallow,fun reported => contained.reads ?_⟩
  rw [out,List.length_append,← List.drop_drop] at reported
  exact List.mem_of_mem_drop reported

theorem contained_say {w : World} {s : Session} (text : String) : Contained w s (s.say (.debug text)) := by
  refine ⟨?_,fun reported => ?_⟩
  · rw [say_statuses]
    omega
  · simp [Session.say] at reported

theorem bearable_of_withstands {w : World} (opens : w.csOpen = true) {s : Session} (phase : Phase s) {line : List Char}
    {command : Command} (called : react line = .call command) (withstands : Withstands w s line) :
    Bearable w s command := by
  have lasting (calm : command ≠ .exit) {fuel code : Nat} {t : Session}
      (ended : (command.perform w (fuel+1)).run s = .exited code t) : t.Refused ∨ t.Mapless w := by
    have quiet : (react line).quits = false := by
      rw [called]
      cases command with
      | exit => exact absurd rfl calm
      | _ => rfl
    exact withstands.lasting quiet fuel code t (by rw [obey,called]; exact ended)
  have survives (calm : command ≠ .exit) (dies : Dies (command.perform w 1) s) : False := by
    obtain ⟨code,t,ended,childless⟩ := dies
    obtain refused | mapless := lasting calm ended
    · rw [Session.Refused,childless] at refused
      exact absurd refused.1 (by simp)
    · rw [Session.Mapless,Session.Live,childless] at mapless
      exact absurd mapless.1 (by simp)
  have contained (asks : command.request ≠ none) (k fuel : Nat) (t : Session)
      (ok : (command.perform (w.until k) (fuel+1)).run s = .done () t) : Contained w s t :=
    withstands.contained command called asks k fuel t (by rw [obey,called]; exact ok)
  refine ⟨?child,?maps,?launch,?fits,?loads,?lists,?resumes,?continues⟩
  case child =>
    intro needs
    by_contra gone
    refine survives ?_ (needsChild_dies (not_live gone) command needs)
    rintro rfl
    cases needs
  case maps =>
    rintro rfl running
    by_contra lost
    obtain ⟨closed,there⟩ := not_or.mp lost
    have closed : s.opens w (w.maps s.sdb.pid) = none := by simpa using closed
    have ended : (Command.vmmap.perform w 1).run s = .exited 1 (s.say (.error "fopen failed" 507)) := by
      simp only [Command.perform,vmmap,bind_run,read_run,andThen_done,running,ne_eq,not_true_eq_false,if_false,
        fopen_none closed,error_run]
    obtain ⟨_,before,text,line,out,kernel⟩ | ⟨live,missing,_⟩ := @lasting (by simp) 0 _ _ ended
    · have last := congrArg List.getLast? out
      simp only [Session.say,List.getLast?_append,List.getLast?_singleton,Option.some_or,Option.some.injEq,
        Message.error.injEq] at last
      rw [← last.1] at kernel
      exact absurd kernel (by decide)
    · exact there ⟨live,missing⟩
  case launch =>
    intro starts loaded
    have childless := phase_childless phase (by simp [loaded])
    by_contra barred
    have dies := dies_start childless loaded barred
    obtain rfl | rfl := starts
    · exact survives (by simp) dies
    · refine survives (by simp) (dies_next (read_run s) ?_)
      rw [loaded]
      exact dies_first _ dies
  case fits =>
    rintro fileName rfl fresh
    exact withstands.fits fileName called fresh
  case loads =>
    rintro fileName rfl idle bytes found magic
    by_contra faults
    have accepted := load_accepted idle found magic
    rw [if_pos (by simpa using faults)] at accepted
    obtain ⟨t,ended,_,child⟩ := accepted
    exact survives (by simp) ⟨139,t,ended,by rw [child]; exact phase_childless phase (by simp [idle])⟩
  case lists =>
    rintro addr rfl running
    exact withstands.lists addr called running
  case resumes =>
    intro request c asks running live
    cases command with
    | si =>
      cases asks
      exact contained_bounded opens running live fun k fuel t ok => contained (by simp [Command.request]) k fuel t ok
    | cont =>
      cases asks
      exact contained_bounded opens running live fun k fuel t ok => contained (by simp [Command.request]) k fuel t ok
    | run =>
      cases asks
      refine contained_bounded (s := s.say (.debug s!"program {s.sdb.programName} is already running")) opens running live
        fun k fuel t ok => contained_later (contained (by simp [Command.request]) k fuel t ?_) rfl ⟨_,rfl⟩
      simp only [Command.perform,Sdb.run,bind_run,read_run,andThen_done,running,debug_run]
      exact ok
    | _ => cases asks
  case continues =>
    rintro rfl loaded pid image m forks executes armed
    obtain ⟨text,started⟩ := start_returns (w := w) loaded forks executes armed
    let u : Session := {s with
      sdb := s.sdb.afterStart pid
      process := .stopped pid {image with mem := m}
      clock := s.clock+1
      out := s.out ++ [.debug text]}
    refine contained_bounded (s := u) opens rfl rfl fun k fuel t ok =>
      contained_later (contained (by simp [Command.request]) k fuel t ?_) rfl ⟨_,rfl⟩
    have begun : (start (w.until k)).run s = .done () u := started
    simp only [Command.perform,Sdb.run,bind_run,read_run,andThen_done,loaded,begun]
    exact ok

theorem careful_idle {s : Session} (idle : s.sdb.state ≠ .running) {text : String} {op : Session → Op Unit} :
    Careful (· = s) (read >>= fun u => if u.sdb.state ≠ .running then debug text else op u) fun _ _ => True :=
  careful_read fun _ same => careful_ite _ (fun _ => careful_debug _ _) fun running => absurd (same ▸ idle) running

theorem careful_childless {w : World} (opens : w.csOpen = true) (fuel : Nat) {s : Session} (childless : s.tracee = none)
    (command : Command) (calm : command ≠ .exit) (bearable : Bearable w s command) :
    Careful (· = s) (command.perform w (fuel+1)) fun _ _ => True := by
  have gone : ¬ s.Live := by simp [Session.Live,childless]
  have spared : command.needsChild s.sdb = false := by
    by_contra needs
    exact gone (bearable.child (by simpa using needs))
  cases command with
  | exit => exact absurd rfl calm
  | help => exact careful_help
  | list => exact careful_list
  | load fileName =>
    exact (careful_load w fileName).weaken (fun u same => same ▸ bearable.loads fileName rfl) fun _ _ holds => holds
  | dump addr => exact careful_dump addr
  | disasm addr =>
    refine Careful.weaken ?_ (fun _ _ => trivial) fun _ _ holds => holds
    exact careful_disasm opens addr 10 fun _ _ holds => holds
  | set regName val => cases spared
  | cont => exact careful_idle (by simpa [Command.needsChild] using spared)
  | get regName => exact careful_idle (by simpa [Command.needsChild] using spared)
  | getregs => exact careful_idle (by simpa [Command.needsChild] using spared)
  | si =>
    simp only [Command.perform]
    unfold si
    exact careful_idle (by simpa [Command.needsChild] using spared)
  | «break» addr =>
    refine careful_read fun u same => careful_ite _ (fun _ => careful_debug _ _) fun running =>
      careful_ite _ (fun _ => careful_debug _ _) fun inside => careful_ite _ (fun _ => careful_pure () fun _ _ => trivial)
        fun fresh => ?_
    subst same
    simp [Command.needsChild] at spared
    exact absurd (spared (by simpa using running) (by simpa using inside)) fresh
  | delete id =>
    refine careful_read fun u same => careful_ite _ (fun _ => careful_debug _ _) fun running =>
      careful_ite _ (fun _ => careful_debug _ _) fun positive => ?_
    subst same
    cases found : u.sdb.addrList.toList[id.toNat]? with
    | none => exact careful_debug _ _
    | some entry =>
      have needs : (Command.delete id).needsChild u.sdb = true := by
        simp only [Command.needsChild,found,Bool.and_eq_true,decide_eq_true_eq,Option.isSome_some,and_true]
        exact ⟨by simpa using running,by omega⟩
      rw [needs] at spared
      cases spared
  | vmmap =>
    refine careful_vmmap.weaken (fun u same running => ?_) fun _ _ holds => holds
    subst same
    obtain found | lost := bearable.maps rfl running
    · exact found
    · exact absurd lost.1 gone
  | run =>
    cases state : s.sdb.state with
    | notLoaded =>
      refine careful_read fun u same => ?_
      subst same
      simp only [state]
      exact careful_debug _ _
    | loaded =>
      have launchable := bearable.launch (.inr rfl) state
      exact (careful_run opens (fuel+1)).weaken (fun u same => .inr (same ▸ launchable)) fun _ _ holds => holds
    | running => simp [Command.needsChild,state] at spared
  | start =>
    by_cases loaded : s.sdb.state = .loaded
    · have launchable := bearable.launch (.inl rfl) loaded
      exact (careful_start.weaken (fun u same => same ▸ launchable) fun _ _ _ => trivial)
    · exact careful_read fun u same => careful_ite _ (fun _ => careful_debug _ _) fun running =>
        absurd (same ▸ loaded) running

theorem barred_inert {w : World} {s : Session} (phase : Phase s) {command : Command} (bearable : Bearable w s command)
    (barred : command.admitted s.sdb.state = false) (fuel : Nat) :
    ∃ t, (command.perform w (fuel+1)).run s = .done () t ∧ Unchanged s t := by
  have guarded : ∀ regName val, command ≠ .set regName val := by
    rintro regName val rfl
    have live := bearable.child rfl
    have idle : s.sdb.state ≠ .running := by simpa [Command.admitted] using barred
    rw [Session.Live,phase_childless phase idle] at live
    cases live
  obtain ⟨text,printed⟩ := unadmitted_prints w fuel command s barred guarded
  exact ⟨_,printed,⟨rfl,rfl,rfl,rfl⟩⟩

/-- vmmap ends the debugger by line 507 only. -/
theorem vmmap_mapless {w : World} {s t : Session} (live : s.Live) (missing : w.maps s.sdb.pid = none) {code : Nat}
    (ended : (vmmap w).run s = .exited code t) : t.Mapless w := by
  have closed : s.opens w (w.maps s.sdb.pid) = none := by simp [Session.opens,missing]
  simp only [vmmap,bind_run,read_run,andThen_done,ite_run,fopen_none closed,error_run] at ended
  split at ended
  next idle => cases ended
  next running =>
    cases ended
    exact ⟨live,missing,s.out,507,rfl⟩

theorem bearable_lasts {w : World} (opens : w.csOpen = true) {s : Session} (phase : Phase s) {command : Command}
    (calm : command ≠ .exit) (bearable : Bearable w s command) {fuel code : Nat} {t : Session}
    (ended : (command.perform w (fuel+1)).run s = .exited code t) : t.Refused ∨ t.Mapless w := by
  by_cases live : s.Live
  · have running : s.sdb.state = .running := by
      by_contra idle
      rw [Session.Live,phase_childless phase idle] at live
      cases live
    by_cases lists : command = .vmmap
    · subst lists
      obtain found | lost := bearable.maps rfl running
      · exact .inl (careful_vmmap.exits s code t (fun _ => found) ended)
      · exact .inr (vmmap_mapless live lost.2 ended)
    · exact .inl ((careful_perform opens (fuel+1) command calm lists).exits s code t ⟨live,running⟩ ended)
  · exact .inl ((careful_childless opens fuel (not_live live) command calm bearable).exits s code t rfl ended)

/-- si, cont and run, from a session that has printed `rows` since `s`. -/
theorem resumes_bearable {w : World} (opens : w.csOpen = true) {s : Session} (phase : Phase s)
    (running : s.sdb.state = .running) {request : Request}
    (bounded : ∀ c, s.process = .stopped s.sdb.pid c → Bounded w s.sdb s.clock request c) (rows : List Message)
    (plain : .breakpointAt ∉ rows) {k fuel : Nat} {t : Session}
    (ok : (resumes (w.until k) request fuel).run {s with out := s.out ++ rows} = .done () t) : Contained w s t := by
  cases phase with
  | idle state pid preAddr preVal childless => exact absurd running state
  | live c state stopped => exact resumes_contained opens running stopped (bounded c stopped) rows plain ok
  | dead signal state killed =>
    have childless : ({s with out := s.out ++ rows} : Session).tracee = none := tracee_dead killed
    cases request with
    | singlestep => exact absurd ok (si_childless childless running _ _ _)
    | cont => exact absurd ok (cont_childless childless running _ _ _)

theorem bearable_contained {w : World} (opens : w.csOpen = true) {s : Session} (phase : Phase s) {command : Command}
    (asks : command.request ≠ none) (bearable : Bearable w s command) {k fuel : Nat} {t : Session}
    (ok : (command.perform (w.until k) (fuel+1)).run s = .done () t) : Contained w s t := by
  cases admitted : command.admitted s.sdb.state with
  | false =>
    have other : ∀ regName val, command ≠ .set regName val := by
      rintro regName val rfl
      exact asks rfl
    obtain ⟨text,printed⟩ := unadmitted_prints (w.until k) fuel command s admitted other
    cases printed.symm.trans ok
    exact contained_say text
  | true =>
    have silent : s = {s with out := s.out ++ []} := by simp
    cases command with
    | si =>
      have running : s.sdb.state = .running := by simpa [Command.admitted] using admitted
      exact resumes_bearable opens phase running (fun c => bearable.resumes _ c rfl running) [] (by simp) (silent ▸ ok)
    | cont =>
      have running : s.sdb.state = .running := by simpa [Command.admitted] using admitted
      exact resumes_bearable opens phase running (fun c => bearable.resumes _ c rfl running) [] (by simp) (silent ▸ ok)
    | run =>
      cases state : s.sdb.state with
      | notLoaded => simp [Command.admitted,state] at admitted
      | running =>
        simp only [Command.perform,Sdb.run,bind_run,read_run,andThen_done,state,debug_run] at ok
        exact resumes_bearable opens phase state (fun c => bearable.resumes _ c rfl state)
          [.debug s!"program {s.sdb.programName} is already running"] (by simp) ok
      | loaded =>
        obtain ⟨_,forks,executes⟩ := bearable.launch (.inr rfl) state
        obtain ⟨pid,forks⟩ := Option.isSome_iff_exists.mp forks
        obtain ⟨image,executes⟩ := Option.isSome_iff_exists.mp executes
        simp only [Command.perform,Sdb.run,bind_run,read_run,andThen_done,state] at ok
        obtain ⟨_,u,begun,ok⟩ := bind_done _ _ _ _ _ ok
        obtain ⟨other,_⟩ | ⟨_,_,c,m,loads,armed,_⟩ := start_done (w.until k) s u begun
        · exact absurd state other
        · cases executes.symm.trans loads
          obtain ⟨text,started⟩ := start_returns (w := w.until k) state forks executes armed
          cases started.symm.trans begun
          have bounded := bearable.continues rfl state pid image m forks executes armed
          have contained := resumes_contained (s := {s with
            sdb := s.sdb.afterStart pid
            process := .stopped pid {image with mem := m}
            clock := s.clock+1}) opens rfl rfl bounded [.debug text] (by simp) ok
          exact ⟨contained.shallow,contained.reads⟩
    | _ => exact absurd rfl asks

end Unixprog.Sdb
