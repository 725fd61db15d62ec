import Unixprog.Sdb.Effects
import Unixprog.Library.Runs

/-! The debugger as a transition system over its prompts, and the three phases a
session can be in. A signal that ends the child leaves the state at RUNNING. -/
namespace Unixprog.Sdb
open Words Runs

/-- A label is a command with the fuel it is given; a step is one that returns. -/
def debugger (w : World) : System Session (Nat × Command) where
  initial s := ∃ elf sect name, s = Session.create elf sect name
  step s label t := (label.2.perform w label.1).run s = .done () t

def Status.fatal : Status → Bool
  | .ended (.signaled _) => true
  | _ => false

def Session.unharmed (s : Session) : Prop := ∀ status ∈ s.statuses, status.fatal = false

inductive Phase (s : Session) : Prop
  | idle (state : s.sdb.state ≠ .running) (pid : s.sdb.pid = 0) (preAddr : s.sdb.preAddr = 0)
      (preVal : s.sdb.preVal = 0) (childless : s.tracee = none)
      (empty : s.sdb.state = .notLoaded → s.sdb.addrList = ∅) (unharmed : s.unharmed)
  | live (c : Child) (state : s.sdb.state = .running) (stopped : s.process = .stopped s.sdb.pid c)
      (unharmed : s.unharmed)
  | dead (signal : Nat) (state : s.sdb.state = .running)
      (killed : s.process = .ended s.sdb.pid (.signaled signal)) (harmed : ¬ s.unharmed)

theorem tracee_dead {s : Session} {ending : Ending} (killed : s.process = .ended s.sdb.pid ending) :
    s.tracee = none := by
  simp only [Session.tracee,killed]

theorem stopped_running {s : Session} {c : Child} (phase : Phase s) (live : s.process = .stopped s.sdb.pid c) :
    s.sdb.state = .running := by
  cases phase with
  | idle state pid preAddr preVal childless =>
    rw [tracee_live live] at childless
    cases childless
  | live c' state => exact state
  | dead signal state => exact state

/-! Commands without a child. -/

section Childless
variable {s : Session}

theorem peekText_childless (none : s.tracee = none) (addr : Word) :
    (peekText addr).run s = .done (-1) s := by
  simp only [peekText,none,Option.bind_none,Option.getD_none]

theorem pokeText_childless (none : s.tracee = none) (addr data : Word) :
    (pokeText addr data).run s = .done false s := by
  simp only [pokeText,none]

theorem getRegs_childless (none : s.tracee = none) : getRegs.run s = .done Option.none s := by
  simp only [getRegs,none,Option.map_none]

theorem letRun_childless (none : s.tracee = none) (request : Request) :
    (letRun request).run s = .done false s := by
  simp only [letRun,none]

theorem liftTrap_childless (none : s.tracee = none) (line : Nat) (t : Session)
    (ok : (liftTrap line).run s = .done () t) : t = s := by
  simp only [liftTrap,bind_run,read_run,andThen_done,ite_run,pokeText_childless none] at ok
  split at ok
  next pending => simp at ok
  next clear =>
    cases ok
    rfl

theorem cont_childless (none : s.tracee = none) (running : s.sdb.state = .running) (w : World)
    (fuel : Nat) (t : Session) : (cont w fuel).run s ≠ .done () t := by
  intro ok
  simp only [cont,bind_run,read_run,andThen_done,running,ne_eq,not_true_eq_false,if_false] at ok
  obtain ⟨_,u,lift,ok⟩ := bind_done _ _ _ _ _ ok
  cases liftTrap_childless none _ _ lift
  simp [letRun_childless none] at ok

theorem si_childless (none : s.tracee = none) (running : s.sdb.state = .running) (w : World)
    (fuel : Nat) (t : Session) : (si w fuel).run s ≠ .done () t := by
  intro ok
  cases fuel with
  | zero => simp [si] at ok
  | succ fuel =>
    unfold si at ok
    simp only [bind_run,read_run,andThen_done,running,ne_eq,not_true_eq_false,if_false] at ok
    obtain ⟨_,u,lift,ok⟩ := bind_done _ _ _ _ _ ok
    cases liftTrap_childless none _ _ lift
    simp [letRun_childless none] at ok

theorem setBreak_childless (none : s.tracee = none) (addr : Word) (t : Session)
    (ok : (setBreak addr).run s = .done () t) : Unchanged s t := by
  simp only [setBreak,bind_run,read_run,andThen_done,ite_run] at ok
  split at ok
  next idle => exact quiet_debug _ s () t ok
  split at ok
  next outside => exact quiet_debug _ s () t ok
  split at ok
  next listed => exact quiet_pure () s () t ok
  next inside fresh =>
    simp only [peekText_childless none,andThen_done,bind_run,onSdb_run] at ok
    rw [pokeText_childless ?childless] at ok
    case childless => exact none
    simp at ok

theorem del_childless (none : s.tracee = none) (id : Int) (t : Session)
    (ok : (del id).run s = .done () t) : Unchanged s t := by
  simp only [del,bind_run,read_run,andThen_done,ite_run] at ok
  split at ok
  next idle => exact quiet_debug _ s () t ok
  split at ok
  next negative => exact quiet_debug _ s () t ok
  next valid =>
    cases found : s.sdb.addrList.toList[id.toNat]? with
    | none => simp only [found] at ok; exact quiet_debug _ s () t ok
    | some entry => simp [found,pokeText_childless none] at ok

theorem set_childless (none : s.tracee = none) (regName : String) (val : Word) (t : Session) :
    (set regName val).run s ≠ .done () t := by
  simp [set,getRegs_childless none]

end Childless

theorem perform_childless (w : World) (fuel : Nat) (command : Command) (s t : Session)
    (none : s.tracee = none) (running : s.sdb.state = .running)
    (ok : (command.perform w fuel).run s = .done () t) : Unchanged s t := by
  cases command with
  | «break» addr => exact setBreak_childless none addr t ok
  | cont => exact absurd ok (cont_childless none running w fuel t)
  | delete id => exact del_childless none id t ok
  | disasm addr => exact quiet_disasm _ _ _ _ _ _ ok
  | dump addr => exact quiet_dump _ _ _ _ ok
  | exit => exact absurd ok (quit_never s t)
  | get regName => exact quiet_get _ _ _ _ ok
  | getregs => exact quiet_getregs _ _ _ ok
  | help => exact quiet_help _ _ _ ok
  | list => exact quiet_list _ _ _ ok
  | load fileName =>
    obtain ⟨process,clock,statuses,_,_,_,_,kept | fresh⟩ := load_cases w fileName s t ok
    · exact ⟨kept.2,process,clock,statuses⟩
    · rw [running] at fresh
      exact absurd fresh.1 (by decide)
  | run =>
    simp only [Command.perform,run,bind_run,read_run,andThen_done,running,debug_run] at ok
    refine absurd ok (cont_childless (s := s.say _) ?_ running w fuel t)
    exact none
  | vmmap => exact quiet_vmmap _ _ _ _ ok
  | set regName val => exact absurd ok (set_childless none regName val t)
  | si => exact absurd ok (si_childless none running w fuel t)
  | start =>
    obtain kept | loaded := start_done w s t ok
    · exact kept.2
    · rw [running] at loaded
      exact absurd loaded.1 (by decide)

/-! What a step can do. -/

structure Started (w : World) (s t : Session) (pid : ℕ+) (c : Child) (m : Memory) : Prop where
  loaded : s.sdb.state = .loaded
  image : w.exec s.sdb.programName = some c
  armed : rearmAll s.sdb.preAddr (s.sdb.addrList.toList.map Prod.fst) c.mem = some m
  sdb : t.sdb = s.sdb.afterStart pid
  statuses : t.statuses = s.statuses
  process : t.process = .stopped pid {c with mem := m}

structure Loads (s t : Session) : Prop where
  idle : s.sdb.state = .notLoaded
  state : t.sdb.state ≠ .running
  addrList : t.sdb.addrList = s.sdb.addrList
  preAddr : t.sdb.preAddr = s.sdb.preAddr
  preVal : t.sdb.preVal = s.sdb.preVal
  pid : t.sdb.pid = s.sdb.pid
  process : t.process = s.process
  statuses : t.statuses = s.statuses

inductive Moved (w : World) (s : Session) : Command → Session → Prop
  | same {t : Session} (command : Command) (unchanged : Unchanged s t) : Moved w s command t
  | loads {t : Session} (fileName : String) (loads : Loads s t) : Moved w s (.load fileName) t
  | starts {t : Session} (pid : ℕ+) (c : Child) (m : Memory) (started : Started w s t pid c m) :
      Moved w s .start t
  | affects {t : Session} (command : Command) (c : Child) (running : s.sdb.state = .running)
      (live : s.process = .stopped s.sdb.pid c) (affects : Affects w s c command t) :
      Moved w s command t

theorem start_moved (w : World) (s t : Session) (ok : (start w).run s = .done () t) :
    Moved w s .start t := by
  obtain ⟨_,unchanged⟩ | ⟨loaded,pid,c,m,image,armed,sdb,statuses,process⟩ := start_done w s t ok
  · exact .same .start unchanged
  · exact .starts pid c m ⟨loaded,image,armed,sdb,statuses,process⟩

/-- The one command made of two: running a loaded program starts and continues it. -/
def Launches (s : Session) (command : Command) : Prop := command = .run ∧ s.sdb.state = .loaded

theorem not_launches (s : Session) (command : Command) (other : command ≠ .run) :
    ¬ Launches s command := fun launches => other launches.1

theorem perform_idle (w : World) (fuel : Nat) (command : Command) (s t : Session)
    (none : s.tracee = none) (idle : s.sdb.state ≠ .running)
    (ok : (command.perform w fuel).run s = .done () t) :
    ¬ Launches s command ∧ Moved w s command t ∨ Launches s command ∧
      ∃ u, (start w).run s = .done () u ∧ (cont w fuel).run u = .done () t := by
  have print (text : String) (shown : (debug text).run s = .done () t) : Moved w s command t :=
    .same command (quiet_debug text s () t shown)
  have one (other : command ≠ .run) (moved : Moved w s command t) :
      ¬ Launches s command ∧ Moved w s command t ∨ Launches s command ∧
        ∃ u, (start w).run s = .done () u ∧ (cont w fuel).run u = .done () t :=
    .inl ⟨not_launches s command other,moved⟩
  cases command with
  | «break» addr => exact one (by simp) (.same _ (setBreak_childless none addr t ok))
  | cont =>
    simp only [Command.perform,cont,bind_run,read_run,andThen_done,if_pos idle] at ok
    exact one (by simp) (print _ ok)
  | delete id => exact one (by simp) (.same _ (del_childless none id t ok))
  | disasm addr => exact one (by simp) (.same _ (quiet_disasm _ _ _ _ _ _ ok))
  | dump addr => exact one (by simp) (.same _ (quiet_dump _ _ _ _ ok))
  | exit => exact absurd ok (quit_never s t)
  | get regName => exact one (by simp) (.same _ (quiet_get _ _ _ _ ok))
  | getregs => exact one (by simp) (.same _ (quiet_getregs _ _ _ ok))
  | help => exact one (by simp) (.same _ (quiet_help _ _ _ ok))
  | list => exact one (by simp) (.same _ (quiet_list _ _ _ ok))
  | load fileName =>
    obtain ⟨process,clock,statuses,addrList,preAddr,preVal,pid,kept | fresh⟩ := load_cases w fileName s t ok
    · exact one (by simp) (.same _ ⟨kept.2,process,clock,statuses⟩)
    · refine one (by simp) (.loads fileName ⟨fresh.1,?_,addrList,preAddr,preVal,pid,process,statuses⟩)
      obtain state | state := fresh.2 <;> simp [state]
  | run =>
    simp only [Command.perform,run,bind_run,read_run,andThen_done] at ok
    cases state : s.sdb.state with
    | running => exact absurd state idle
    | loaded =>
      simp only [state] at ok
      obtain ⟨_,u,begun,ok⟩ := bind_done _ _ _ _ _ ok
      exact .inr ⟨⟨rfl,state⟩,u,begun,ok⟩
    | notLoaded =>
      simp only [state] at ok
      exact .inl ⟨by simp [Launches,state],print _ ok⟩
  | vmmap => exact one (by simp) (.same _ (quiet_vmmap _ _ _ _ ok))
  | set regName val => exact absurd ok (set_childless none regName val t)
  | si =>
    cases fuel with
    | zero => simp [Command.perform,si] at ok
    | succ fuel =>
      unfold Command.perform si at ok
      simp only [bind_run,read_run,andThen_done,if_pos idle] at ok
      exact one (by simp) (print _ ok)
  | start => exact one (by simp) (start_moved w s t ok)

/-! The phases are kept. -/

theorem Settles.phase {w : World} {d e : SDB} {report : Report} {p : Process} {heard : List Report}
    (settles : Settles w d report e p heard) (running : d.state = .running) :
    (e = d.afterExit ∨ e = {d with preAddr := 0}.afterExit) ∧ (∃ code, p = .ended d.pid (.exited code)) ∧
        (∀ report ∈ heard, report.status.fatal = false) ∨
      e.state = .running ∧ (∃ c, p = .stopped e.pid c) ∧ (∀ report ∈ heard, report.status.fatal = false) ∨
      e.state = .running ∧ (∃ signal, p = .ended e.pid (.signaled signal)) ∧
        ∃ report ∈ heard, report.status.fatal = true := by
  induction settles with
  | exited d code => exact .inl ⟨.inl rfl,⟨code,rfl⟩,by simp [Report.status,Status.fatal]⟩
  | signaled d signal => exact .inr (.inr ⟨running,⟨signal,rfl⟩,by simp [Report.status,Status.fatal]⟩)
  | other d signal c differs =>
    exact .inr (.inl ⟨running,⟨c,rfl⟩,by simp [Report.status,Status.fatal]⟩)
  | hit d c value mapped listed =>
    exact .inr (.inl ⟨running,⟨_,rfl⟩,by simp [Report.status,Status.fatal]⟩)
  | pass d c mapped before here =>
    exact .inr (.inl ⟨running,⟨_,rfl⟩,by simp [Report.status,Status.fatal]⟩)
  | nested d e c mapped before here fuel clock report p heard resumed rest ih =>
    rcases ih running with ⟨fields,ended,calm⟩ | ⟨state,stopped,calm⟩ | ⟨state,killed,report,member,fatal⟩
    · refine .inl ⟨?_,ended,?_⟩
      · obtain fields | fields := fields <;> exact .inr fields
      · simpa [Report.status,Status.fatal] using calm
    · exact .inr (.inl ⟨state,stopped,by simpa [Report.status,Status.fatal] using calm⟩)
    · exact .inr (.inr ⟨state,killed,report,List.mem_cons_of_mem _ member,fatal⟩)

theorem Settles.frame {w : World} {d e : SDB} {report : Report} {p : Process} {heard : List Report}
    (settles : Settles w d report e p heard) :
    e.sectHeader = d.sectHeader ∧ e.programName = d.programName ∧ e.addrList = d.addrList := by
  induction settles with
  | nested d e c mapped before here fuel clock report p heard resumed rest ih => exact ih
  | _ => exact ⟨rfl,rfl,rfl⟩

theorem Effect.frame {w : World} {clock : Nat} {d e : SDB} {c : Child} {command : Command} {p : Process}
    {heard : List Report} (effect : Effect w clock d c command e p heard) :
    e.sectHeader = d.sectHeader ∧ e.programName = d.programName := by
  cases effect with
  | resume command request lets mapped time report told e p heard settles =>
    exact ⟨settles.frame.1,settles.frame.2.1⟩
  | _ => exact ⟨rfl,rfl⟩

theorem Effect.listed {w : World} {clock : Nat} {d e : SDB} {c : Child} {command : Command} {p : Process}
    {heard : List Report} (effect : Effect w clock d c command e p heard) (a : Word) (listed : a ∈ e.addrList) :
    a ∈ d.addrList ∨ command = .break a ∧ d.inText a = true := by
  cases effect with
  | insert addr code inside fresh found =>
    have split : addr = a ∨ a ∈ d.addrList := by simpa [SDB.insert] using listed
    obtain rfl | old := split
    · exact .inr ⟨rfl,inside⟩
    · exact .inl old
  | erase id addr value valid found mapped =>
    have split : addr ≠ a ∧ a ∈ d.addrList := by simpa [SDB.erase] using listed
    exact .inl split.2
  | resume command request lets mapped time report told e p heard settles =>
    rw [settles.frame.2.2] at listed
    exact .inl listed
  | _ => exact .inl listed

theorem Settles.pending {w : World} {d e : SDB} {report : Report} {p : Process} {heard : List Report}
    (settles : Settles w d report e p heard) (pending : e.preAddr ≠ 0) :
    e.preAddr = d.preAddr ∧ e.preVal = d.preVal ∨
      ∃ v, d.addrList[e.preAddr]? = some v ∧ byteAt e.preVal 0 = byteAt v 0 := by
  induction settles with
  | exited d code => exact absurd rfl pending
  | signaled d signal => exact .inl ⟨rfl,rfl⟩
  | other d signal c differs => exact .inl ⟨rfl,rfl⟩
  | hit d c value mapped listed =>
    refine .inr ⟨value,listed,?_⟩
    exact byteAt_savedWord _ _ _ _ (by omega)
  | pass d c mapped before here => exact absurd rfl pending
  | nested d e c mapped before here fuel clock report p heard resumed rest ih =>
    obtain ⟨none,_⟩ | found := ih pending
    · exact absurd none pending
    · exact .inr found

theorem Effect.pending {w : World} {clock : Nat} {d e : SDB} {c : Child} {command : Command} {p : Process}
    {heard : List Report} (effect : Effect w clock d c command e p heard) (pending : e.preAddr ≠ 0) :
    e.preAddr = d.preAddr ∧ e.preVal = d.preVal ∨
      ∃ v, d.addrList[e.preAddr]? = some v ∧ byteAt e.preVal 0 = byteAt v 0 := by
  cases effect with
  | resume command request lets mapped time report told e p heard settles => exact settles.pending pending
  | setRip val => exact absurd rfl pending
  | _ => exact .inl ⟨rfl,rfl⟩

theorem Effect.loaded {w : World} {clock : Nat} {d e : SDB} {c : Child} {command : Command} {p : Process}
    {heard : List Report} (effect : Effect w clock d c command e p heard) (running : d.state = .running) :
    e.state ≠ .notLoaded := by
  cases effect with
  | resume command request lets mapped time report told e p heard settles =>
    rcases settles.phase running with ⟨fields | fields,_⟩ | ⟨state,_⟩ | ⟨state,_⟩
    · simp [fields,SDB.afterExit]
    · simp [fields,SDB.afterExit]
    · simp [state]
    · simp [state]
  | _ => simp [SDB.insert,SDB.erase,running]

theorem unharmed_append {s t : Session} {heard : List Report} (unharmed : s.unharmed)
    (statuses : t.statuses = s.statuses ++ heard.map Report.status)
    (calm : ∀ report ∈ heard, report.status.fatal = false) : t.unharmed := by
  intro status member
  rw [statuses,List.mem_append,List.mem_map] at member
  obtain old | ⟨report,new,rfl⟩ := member
  · exact unharmed status old
  · exact calm report new

theorem affects_phase (w : World) (s t : Session) (c : Child) (command : Command)
    (state : s.sdb.state = .running) (unharmed : s.unharmed) (moved : Affects w s c command t) :
    Phase t := by
  obtain ⟨heard,effect,statuses⟩ := moved
  have stays (running : t.sdb.state = .running) (after : Child)
      (stopped : t.process = .stopped t.sdb.pid after) (silent : heard = []) : Phase t :=
    .live after running stopped (unharmed_append unharmed statuses (by simp [silent]))
  generalize sdb : t.sdb = e at effect
  generalize process : t.process = p at effect
  cases effect with
  | resume _ request lets mapped time report told e p heard settles =>
    subst sdb process
    rcases settles.phase state with ⟨fields,⟨code,ended⟩,calm⟩ | ⟨running,⟨after,stopped⟩,calm⟩ |
      ⟨running,⟨signal,killed⟩,report,member,fatal⟩
    · have cleared : t.sdb.state = .loaded ∧ t.sdb.pid = 0 ∧ t.sdb.preAddr = 0 ∧ t.sdb.preVal = 0 := by
        obtain fields | fields := fields <;> rw [fields] <;> exact ⟨rfl,rfl,rfl,rfl⟩
      refine .idle (by simp [cleared.1]) cleared.2.1 cleared.2.2.1 cleared.2.2.2 ?_ (by simp [cleared.1])
        (unharmed_append unharmed statuses calm)
      simp only [Session.tracee,ended]
    · exact .live after running stopped (unharmed_append unharmed statuses calm)
    · refine .dead signal running killed ?_
      intro calm
      have quiet := calm report.status (by rw [statuses]; simp [List.mem_map_of_mem member])
      rw [fatal] at quiet
      cases quiet
  | quiet => exact stays (by rw [sdb]; exact state) _ (by rw [process,sdb]) rfl
  | insert addr code inside fresh found =>
    exact stays (by rw [sdb]; exact state) _ (by rw [process,sdb]; rfl) rfl
  | erase id addr value valid found mapped =>
    exact stays (by rw [sdb]; exact state) _ (by rw [process,sdb]; rfl) rfl
  | setRip val => exact stays (by rw [sdb]; exact state) _ (by rw [process,sdb]) rfl
  | setOther regName val regs differs named => exact stays (by rw [sdb]; exact state) _ (by rw [process,sdb]) rfl

theorem Unchanged.phase {s t : Session} (same : Unchanged s t) (phase : Phase s) : Phase t := by
  have kept : t.unharmed ↔ s.unharmed := by simp only [Session.unharmed,same.statuses]
  cases phase with
  | idle state pid preAddr preVal childless empty unharmed =>
    refine .idle ?_ ?_ ?_ ?_ ?_ ?_ (kept.mpr unharmed)
    all_goals simpa only [same.sdb,Session.tracee,same.process]
  | live c state stopped unharmed =>
    exact .live c (by rw [same.sdb,state]) (by rw [same.process,same.sdb,stopped]) (kept.mpr unharmed)
  | dead signal state killed harmed =>
    exact .dead signal (by rw [same.sdb,state]) (by rw [same.process,same.sdb,killed])
      (fun calm => harmed (kept.mp calm))

theorem moved_phase (w : World) (s t : Session) (command : Command) (phase : Phase s)
    (moved : Moved w s command t) : Phase t := by
  cases moved with
  | same command unchanged => exact unchanged.phase phase
  | loads fileName loads =>
    cases phase with
    | idle state pid preAddr preVal childless empty unharmed =>
      refine .idle loads.state (loads.pid.trans pid) (loads.preAddr.trans preAddr) (loads.preVal.trans preVal)
        ?_ (fun _ => loads.addrList.trans (empty loads.idle)) ?_
      · simpa only [Session.tracee,loads.process,loads.pid] using childless
      · simpa only [Session.unharmed,loads.statuses] using unharmed
    | live c state => exact absurd loads.idle (by simp [state])
    | dead signal state => exact absurd loads.idle (by simp [state])
  | starts pid c m started =>
    cases phase with
    | idle state pid preAddr preVal childless empty unharmed =>
      refine .live _ (by rw [started.sdb]; rfl) (by rw [started.process,started.sdb]; rfl) ?_
      simpa only [Session.unharmed,started.statuses] using unharmed
    | live c state => exact absurd started.loaded (by simp [state])
    | dead signal state => exact absurd started.loaded (by simp [state])
  | affects command c running live affects =>
    cases phase with
    | idle state => exact absurd running state
    | live c' state stopped unharmed => exact affects_phase w s t c command running unharmed affects
    | dead signal state killed => simp [killed] at live

/-- The inversion lemma for a step of the debugger. -/
theorem step_moved (w : World) (fuel : Nat) (command : Command) (s t : Session) (phase : Phase s)
    (ok : (command.perform w fuel).run s = .done () t) :
    ¬ Launches s command ∧ Moved w s command t ∨ Launches s command ∧
      ∃ u, (start w).run s = .done () u ∧ Moved w s .start u ∧ Moved w u .cont t := by
  cases phase with
  | live c state stopped unharmed =>
    exact .inl ⟨by simp [Launches,state],
      .affects command c state stopped (perform_affects w fuel command s t c stopped state ok)⟩
  | dead signal state killed harmed =>
    exact .inl ⟨by simp [Launches,state],
      .same command (perform_childless w fuel command s t (tracee_dead killed) state ok)⟩
  | idle state pid preAddr preVal childless empty unharmed =>
    obtain moved | ⟨launches,u,begun,continued⟩ := perform_idle w fuel command s t childless state ok
    · exact .inl moved
    · have first := start_moved w s u begun
      have phase := moved_phase w s u .start
        (.idle state pid preAddr preVal childless empty unharmed) first
      refine .inr ⟨launches,u,begun,first,?_⟩
      obtain ⟨other,_⟩ | ⟨_,pid,c,m,_,_,sdb,_,process⟩ := start_done w s u begun
      · exact absurd launches.2 other
      · have live : u.process = .stopped u.sdb.pid {c with mem := m} := by rw [process,sdb]; rfl
        have running : u.sdb.state = .running := by rw [sdb]; rfl
        exact .affects .cont _ running live (cont_affects w fuel u t _ .cont rfl live running continued)

/-- A condition on single commands, for the steps of the debugger: a run of a
loaded program is a start and then a cont. -/
def Within (w : World) (ok : Session → Command → Prop) (s : Session) (label : Nat × Command) : Prop :=
  (¬ Launches s label.2 → ok s label.2) ∧
    (Launches s label.2 → ok s .start ∧ ∀ u, (start w).run s = .done () u → ok u .cont)

theorem within_calm {w : World} {ok : Session → Command → Prop} {s : Session} {command : Command} (fuel : Nat)
    (calm : command ≠ .run) (holds : ok s command) : Within w ok s (fuel,command) :=
  ⟨fun _ => holds,fun launch => absurd launch.1 calm⟩

theorem created_phase (elf sect : Record) (name : String) : Phase (Session.create elf sect name) := by
  refine .idle ?_ rfl rfl rfl rfl (fun _ => rfl) ?_
  · simp [Session.create,SDB.create]
  · simp [Session.unharmed,Session.create]

theorem prompt_invariant (w : World) (ok : Session → Command → Prop) (Inv : Session → Prop)
    (base : ∀ elf sect name, Inv (Session.create elf sect name))
    (kept : ∀ s command t, Phase s → Inv s → ok s command → Moved w s command t → Inv t)
    {s : Session} (run : Guarded (debugger w) (Within w ok) s) : Phase s ∧ Inv s := by
  refine run.invariant (fun s => Phase s ∧ Inv s) ?_ ?_
  · rintro s ⟨elf,sect,name,rfl⟩
    exact ⟨created_phase elf sect name,base elf sect name⟩
  · rintro s ⟨fuel,command⟩ t ⟨phase,inv⟩ meets moved
    obtain ⟨other,one⟩ | ⟨launches,u,begun,first,second⟩ := step_moved w fuel command s t phase moved
    · exact ⟨moved_phase w s t command phase one,kept s command t phase inv (meets.1 other) one⟩
    · obtain ⟨starting,continuing⟩ := meets.2 launches
      have phase' := moved_phase w s u .start phase first
      exact ⟨moved_phase w u t .cont phase' second,
        kept u .cont t phase' (kept s .start u phase inv starting first) (continuing u begun) second⟩

theorem reachable_invariant (w : World) (Inv : Session → Prop)
    (base : ∀ elf sect name, Inv (Session.create elf sect name))
    (kept : ∀ s command t, Phase s → Inv s → Moved w s command t → Inv t)
    {s : Session} (reached : Reachable (debugger w) s) : Phase s ∧ Inv s := by
  refine prompt_invariant w (fun _ _ => True) Inv base ?_ (reached.weaken ?_)
  · intro s command t phase inv _ moved
    exact kept s command t phase inv moved
  · intro s label _
    exact ⟨fun _ => trivial,fun _ => ⟨trivial,fun _ _ => trivial⟩⟩

theorem reachable_phase {w : World} {s : Session} (reached : Reachable (debugger w) s) : Phase s :=
  (reachable_invariant w (fun _ => True) (fun _ _ _ => trivial) (fun _ _ _ _ _ _ => trivial) reached).1

theorem reachable_text {w : World} {s : Session} (reached : Reachable (debugger w) s) :
    (∀ a ∈ s.sdb.addrList, s.sdb.inText a = true) ∧
      (s.sdb.preAddr ≠ 0 → s.sdb.inText s.sdb.preAddr = true) := by
  refine (reachable_invariant w (fun s => (∀ a ∈ s.sdb.addrList, s.sdb.inText a = true) ∧
    (s.sdb.preAddr ≠ 0 → s.sdb.inText s.sdb.preAddr = true)) ?_ ?_ reached).2
  · intro elf sect name
    exact ⟨fun a listed => absurd listed Std.ExtTreeMap.not_mem_empty,fun pending => absurd rfl pending⟩
  intro s command t phase inv moved
  cases moved with
  | same command unchanged =>
    rw [unchanged.sdb]
    exact inv
  | loads fileName loads =>
    cases phase with
    | idle state pid preAddr preVal childless empty unharmed =>
      refine ⟨?_,fun pending => absurd (loads.preAddr.trans preAddr) pending⟩
      rw [loads.addrList,empty loads.idle]
      exact fun a listed => absurd listed Std.ExtTreeMap.not_mem_empty
    | live c state => exact absurd loads.idle (by simp [state])
    | dead signal state => exact absurd loads.idle (by simp [state])
  | starts pid c m started =>
    rw [started.sdb]
    exact inv
  | affects command c running live affects =>
    obtain ⟨heard,effect,_⟩ := affects
    have text (a : Word) : t.sdb.inText a = s.sdb.inText a := by simp only [SDB.inText,effect.frame.1]
    refine ⟨?_,?_⟩
    · intro a listed
      rw [text]
      obtain old | ⟨rfl,inside⟩ := effect.listed a listed
      · exact inv.1 a old
      · exact inside
    · intro pending
      rw [text]
      obtain ⟨old,_⟩ | ⟨v,listed,_⟩ := effect.pending pending
      · rw [old] at pending ⊢
        exact inv.2 pending
      · refine inv.1 _ ?_
        rw [Std.ExtTreeMap.mem_iff_isSome_getElem?,listed]
        rfl

theorem reachable_listed {w : World} {s : Session} (reached : Reachable (debugger w) s) :
    ∀ a ∈ s.sdb.addrList, s.sdb.inText a = true := (reachable_text reached).1

/-! The state field and the child. -/

/-- RUNNING means a stopped child under the pid, any other state means that
neither a pid nor a pending hit is kept. -/
structure Session.TellsTruth (s : Session) : Prop where
  running : s.sdb.state = .running ↔ ∃ c, s.process = .stopped s.sdb.pid c
  cleared : s.sdb.state ≠ .running → s.sdb.pid = 0 ∧ s.sdb.preAddr = 0 ∧ s.sdb.preVal = 0

/-- At every prompt the state tells the truth exactly when no child was ended by
a signal so far. -/
theorem tells_truth_iff_unharmed (w : World) (s : Session) (reached : Reachable (debugger w) s) :
    s.TellsTruth ↔ s.unharmed := by
  cases reachable_phase reached with
  | idle state pid preAddr preVal childless empty unharmed =>
    refine ⟨fun _ => unharmed,fun _ => ⟨?_,fun _ => ⟨pid,preAddr,preVal⟩⟩⟩
    refine ⟨fun running => absurd running state,?_⟩
    rintro ⟨c,stopped⟩
    rw [(tracee_some s c).mpr stopped] at childless
    cases childless
  | live c state stopped unharmed =>
    exact ⟨fun _ => unharmed,fun _ => ⟨⟨fun _ => ⟨c,stopped⟩,fun _ => state⟩,fun idle => absurd state idle⟩⟩
  | dead signal state killed harmed =>
    refine ⟨fun truth => ?_,fun calm => absurd calm harmed⟩
    obtain ⟨c,stopped⟩ := truth.running.mp state
    rw [killed] at stopped
    cases stopped

/-! Whole sessions on a sample program. -/

def script (w : World) (fuel : Nat) (commands : List Command) : Op Unit :=
  commands.forM fun command => command.perform w fuel

theorem script_cons (w : World) (fuel : Nat) (command : Command) (rest : List Command) (s : Session) :
    (script w fuel (command::rest)).run s =
      ((command.perform w fuel).run s).andThen fun _ => script w fuel rest := rfl

theorem script_reachable (w : World) (fuel : Nat) (commands : List Command) (s t : Session)
    (reached : Reachable (debugger w) s) (ok : (script w fuel commands).run s = .done () t) :
    Reachable (debugger w) t := by
  induction commands generalizing s with
  | nil =>
    cases ok
    exact reached
  | cons command commands ih =>
    obtain ⟨_,u,begun,ok⟩ := bind_done _ _ _ _ _ ok
    have moved : (debugger w).step s (fuel,command) u := begun
    exact ih u (.next reached moved trivial) ok

def littleEndian (width value : Nat) : List Byte :=
  (List.range width).map fun i => BitVec.ofNat 8 (value/256^i)

def sampleFile (textAddr textSize : Nat) : List Byte :=
  elfMagic ++ littleEndian 20 0 ++ littleEndian 8 textAddr ++ littleEndian 8 0 ++ littleEndian 8 64 ++
    littleEndian 12 0 ++ littleEndian 2 2 ++ littleEndian 2 0 ++
    (littleEndian 24 0 ++ littleEndian 8 192 ++ littleEndian 8 7 ++ littleEndian 24 0) ++
    (littleEndian 4 1 ++ littleEndian 12 0 ++ littleEndian 8 textAddr ++ littleEndian 8 199 ++
      littleEndian 8 textSize ++ littleEndian 24 0) ++
    [0#8,0x2e#8,0x74#8,0x65#8,0x78#8,0x74#8,0#8]

def samplePage (code : List Byte) : Memory := fun x =>
  if 0x1000 ≤ x ∧ x < 0x2000 then some (code.getD (x.toNat-0x1000) 0x90) else none

def sampleRegs (rip : Word) : Registers := ⟨0,0,0,0,0,0,0,0,0,0,0,0,0,0,0,0,rip,0⟩

def sampleWorld (code : List Byte) (kernel : Nat → Request → Child → Report) : World where
  file _ := some (sampleFile 0x1000 16)
  streams := 1021
  fork _ := some 7
  exec _ := some ⟨samplePage code,sampleRegs 0x1000⟩
  resume _ clock request child := some (kernel clock request child)
  steady _ _ _ _ _ _ _ told := told
  maps _ := some []
  csOpen := true
  csDisasm _ _ _ := []
  csReads bytes _ count := min bytes.length (15*count)
  malloc _ := true
  heap _ := 0
  mapped i := decide (i < 0x20000)
  stack := 20000

def freshSession : Session := .create (Vector.replicate 64 0) (Vector.replicate 64 0) ""

theorem fresh_reachable (w : World) : Reachable (debugger w) freshSession := .start ⟨_,_,_,rfl⟩

def sampleSession (w : World) (commands : List Command) : Session :=
  match (script w 9 commands).run freshSession with
  | .done _ s => s
  | _ => freshSession

theorem sample_reachable (w : World) (commands : List Command) :
    Reachable (debugger w) (sampleSession w commands) := by
  unfold sampleSession
  split
  next s ok => exact script_reachable w 9 commands _ s (fresh_reachable w) ok
  next => exact fresh_reachable w

def crashing : World := sampleWorld [] fun _ _ _ => .ended (.signaled 9)

theorem crash_keeps_running :
    Reachable (debugger crashing) (sampleSession crashing [.load "a.out",.start,.cont]) ∧
      ¬ (sampleSession crashing [.load "a.out",.start,.cont]).TellsTruth := by
  refine ⟨sample_reachable _ _,?_⟩
  intro truth
  obtain ⟨c,stopped⟩ := truth.running.mp rfl
  cases stopped

theorem tells_truth_iff_unharmed_started :
    (sampleSession crashing [.load "a.out",.start]).TellsTruth ↔
      (sampleSession crashing [.load "a.out",.start]).unharmed :=
  tells_truth_iff_unharmed crashing _ (sample_reachable _ _)

end Unixprog.Sdb
