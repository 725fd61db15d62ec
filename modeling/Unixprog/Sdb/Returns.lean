import Unixprog.Sdb.Effects

/-! Runs of the methods that let the child run, from a prompt to what the next stop
leads to. -/
namespace Unixprog.Sdb
open Words

theorem forM_say {α : Type} (row : α → Message) (items : List α) (s : Session) :
    (items.forM fun item => say (row item)).run s = .done () {s with out := s.out ++ items.map row} := by
  induction items generalizing s with
  | nil => simp [List.forM]
  | cons item items ih =>
    change ((say (row item)).run s).andThen (fun _ => items.forM fun item => say (row item)) = _
    rw [say_run,andThen_done,ih]
    simp [Session.say]

theorem disasm_open (w : World) (addr : Word) (len : Nat) (s : Session) (opens : w.csOpen = true) :
    ∃ rows, (disasm w addr len).run s = .done () {s with out := s.out ++ rows} := by
  simp only [disasm,bind_run,read_run,andThen_done,opens,Bool.not_true,Bool.false_eq_true,if_false,ite_run]
  split
  · exact ⟨_,rfl⟩
  split
  · exact ⟨_,rfl⟩
  split
  · exact ⟨_,rfl⟩
  · exact ⟨_,forM_say id _ s⟩

/-! start. -/

theorem rearmAll_returns {s : Session} {c : Child} {keys : List Word} {m : Memory}
    (live : s.process = .stopped s.sdb.pid c) (armed : rearmAll s.sdb.preAddr keys c.mem = some m) :
    (keys.forM rearm).run s = .done () (s.withChild {c with mem := m}) := by
  induction keys generalizing s c with
  | nil =>
    cases armed
    change Outcome.done () s = _
    rw [Session.withChild,← live]
  | cons addr keys ih =>
    rw [rearmAll,List.foldlM_cons] at armed
    obtain ⟨first,written,rest⟩ := Option.bind_eq_some_iff.mp armed
    have mapped : Mapped c.mem addr := by
      by_contra unmapped
      rw [store_unmapped _ _ _ unmapped] at written
      cases written
    rw [store_mapped _ _ _ mapped] at written
    cases written
    change ((rearm addr).run s).andThen (fun _ => keys.forM rearm) = _
    simp only [rearm,bind_run,read_run,andThen_done,peekText_live live,pokeText_mapped live _ _ mapped,if_true,pure_run]
    exact ih (c := {c with mem := overwrite c.mem addr fun i => some (byteAt (trapWord _) i)}) rfl rest

theorem start_returns {w : World} {s : Session} {pid : ℕ+} {image : Child} {m : Memory} (loaded : s.sdb.state = .loaded)
    (forks : w.fork s.clock = some pid) (executes : w.exec s.sdb.programName = some image)
    (armed : rearmAll s.sdb.preAddr (s.sdb.addrList.toList.map Prod.fst) image.mem = some m) :
    ∃ text, (start w).run s = .done () {s with
      sdb := s.sdb.afterStart pid
      process := .stopped pid {image with mem := m}
      clock := s.clock+1
      out := s.out ++ [.debug text]} := by
  simp only [start,bind_run,read_run,andThen_done,loaded,ne_eq,not_true_eq_false,if_false,forks,spawn,modify_run,executes,
    setOptions,Session.tracee,if_true,Option.isSome_some,debug_run,onSdb_run,forM_fst,say_sdb,say_process]
  rw [rearmAll_returns (c := image) (m := m) (by rfl) (by exact armed)]
  exact ⟨_,rfl⟩

def SDB.resetRows (d : SDB) : List Message := if d.preAddr ≠ 0 then [.resetBp d.preAddr] else []

theorem resetRows_plain (d : SDB) : .breakpointAt ∉ d.resetRows := by
  unfold SDB.resetRows
  split <;> simp

def Session.trapped (s : Session) (c : Child) : Session := {s with
  process := .stopped s.sdb.pid c
  clock := s.clock+1
  statuses := s.statuses ++ [.stopped SIGTRAP]}

def Session.caught (s : Session) (c : Child) : Session := {s with
  out := s.out ++ s.sdb.resetRows
  sdb := {s.sdb with preAddr := 0}
  process := .stopped s.sdb.pid (c.restored s.sdb.preAddr)
  clock := s.clock+1
  statuses := s.statuses ++ [.stopped SIGTRAP]}

def Session.resuming (s : Session) (request : Request) (c : Child) : Session :=
  {s with process := .resumed s.sdb.pid request {c with mem := lifted s.sdb c.mem}}

section Live
variable {w : World} {s : Session} {c after : Child} {request : Request}

theorem reportHit_open (addr value : Word) (opens : w.csOpen = true) (live : s.process = .stopped s.sdb.pid c) :
    ∃ rows, (reportHit w c.regs addr value).run s = .done () {s with
      out := s.out ++ .breakpointAt::rows
      sdb := s.sdb.afterHit c.mem addr value
      process := .stopped s.sdb.pid (c.withRip (c.regs.rip-1))} := by
  obtain ⟨rows,listing⟩ := disasm_open w addr 1 (s.say .breakpointAt) opens
  refine ⟨rows,?_⟩
  simp only [reportHit,bind_run,say_run,andThen_done,listing]
  rw [peekText_live (c := c) ?first]
  case first => exact live
  simp only [bind_run,andThen_done,onSdb_run]
  rw [setRegs_live (c := c) ?second]
  case second => exact live
  simp [Session.withChild,Session.say,SDB.afterHit,savedWord,Child.withRip]

theorem restoreBp_mapped (live : s.process = .stopped s.sdb.pid c)
    (mapped : s.sdb.preAddr ≠ 0 → Mapped c.mem s.sdb.preAddr) :
    restoreBp.run s = .done () {s with
      out := s.out ++ s.sdb.resetRows
      sdb := {s.sdb with preAddr := 0}
      process := .stopped s.sdb.pid (c.restored s.sdb.preAddr)} := by
  by_cases pending : s.sdb.preAddr = 0
  · simp only [restoreBp,bind_run,read_run,andThen_done,SDB.resetRows,pending,ne_eq,not_true_eq_false,if_false,pure_run,
      List.append_nil,Child.restored,restored]
    rw [← live,← pending]
  · obtain ⟨code,readback,_⟩ := fetch_mapped _ _ (mapped pending)
    have live' : (s.say (.resetBp s.sdb.preAddr)).process =
        .stopped (s.say (.resetBp s.sdb.preAddr)).sdb.pid c := live
    simp only [restoreBp,bind_run,read_run,andThen_done,if_pos pending,ne_eq,say_run,peekText_live live',
      pokeText_mapped live' _ _ (mapped pending),readback,Option.getD_some,overwrite_trap _ _ _ readback]
    simp only [if_true,onSdb_run,Session.withChild,Session.say,Child.restored,restored,if_pos pending,SDB.resetRows]

theorem restoreBp_unmapped (live : s.process = .stopped s.sdb.pid c) (pending : s.sdb.preAddr ≠ 0)
    (unmapped : ¬ Mapped c.mem s.sdb.preAddr) : ∃ code t, restoreBp.run s = .exited code t := by
  have live' : (s.say (.resetBp s.sdb.preAddr)).process =
      .stopped (s.say (.resetBp s.sdb.preAddr)).sdb.pid c := live
  simp only [restoreBp,bind_run,read_run,andThen_done,if_pos pending,ne_eq,say_run,peekText_live live',
    pokeText_unmapped live' _ _ unmapped]
  exact ⟨_,_,rfl⟩

theorem liftTrap_mapped (line : Nat) (live : s.process = .stopped s.sdb.pid c)
    (mapped : s.sdb.preAddr ≠ 0 → Mapped c.mem s.sdb.preAddr) :
    (liftTrap line).run s = .done () (s.withChild {c with mem := lifted s.sdb c.mem}) := by
  by_cases pending : s.sdb.preAddr = 0
  · simp only [liftTrap,bind_run,read_run,andThen_done,pending,ne_eq,not_true_eq_false,if_false,pure_run,lifted,
      Session.withChild]
    rw [← live]
  · simp only [liftTrap,bind_run,read_run,andThen_done,if_pos pending,pokeText_mapped live _ _ (mapped pending),if_true,
      pure_run,lifted,ne_eq]

theorem cont_lets (w : World) (fuel : Nat) (live : s.process = .stopped s.sdb.pid c)
    (running : s.sdb.state = .running) (mapped : s.sdb.preAddr ≠ 0 → Mapped c.mem s.sdb.preAddr) :
    (cont w fuel).run s = (checkProcess w fuel).run (s.resuming .cont c) := by
  simp only [cont,bind_run,read_run,andThen_done,running,ne_eq,not_true_eq_false,if_false,
    liftTrap_mapped 198 live mapped]
  rw [letRun_live (c := {c with mem := lifted s.sdb c.mem}) rfl]
  rfl

theorem si_lets (w : World) (fuel : Nat) (live : s.process = .stopped s.sdb.pid c)
    (running : s.sdb.state = .running) (mapped : s.sdb.preAddr ≠ 0 → Mapped c.mem s.sdb.preAddr) :
    (si w (fuel+1)).run s = (checkProcess w fuel).run (s.resuming .singlestep c) := by
  unfold si
  simp only [bind_run,read_run,andThen_done,running,ne_eq,not_true_eq_false,if_false,liftTrap_mapped 183 live mapped]
  rw [letRun_live (c := {c with mem := lifted s.sdb c.mem}) rfl]
  rfl

/-! What check_process does with the report. -/

theorem waitpid_trapped (fuel : Nat) (process : s.process = .resumed s.sdb.pid request c)
    (told : w.resume fuel s.clock request c = some (.stopped SIGTRAP after)) :
    (waitpid w fuel).run s = .done (some (.stopped SIGTRAP after)) (s.trapped after) := by
  simp only [waitpid,process,if_true,told]
  rfl

theorem checkProcess_trapped (fuel : Nat) (process : s.process = .resumed s.sdb.pid request c)
    (told : w.resume (fuel+1) s.clock request c = some (.stopped SIGTRAP after))
    (mapped : s.sdb.preAddr ≠ 0 → Mapped after.mem s.sdb.preAddr) :
    (checkProcess w (fuel+1)).run s = match s.sdb.addrList[after.regs.rip-1]? with
      | some value => (reportHit w after.regs (after.regs.rip-1) value).run (s.caught after)
      | none => if after.regs.rip ∈ s.sdb.addrList then (si w fuel).run (s.caught after)
        else .done () (s.caught after) := by
  unfold checkProcess
  simp only [bind_run,waitpid_trapped (fuel+1) process told,andThen_done,read_run,if_true]
  have restored : restoreBp.run (s.trapped after) = .done () (s.caught after) :=
    restoreBp_mapped (c := after) rfl mapped
  have registers : getRegs.run (s.caught after) = .done (some after.regs) (s.caught after) :=
    getRegs_live (c := after.restored s.sdb.preAddr) rfl
  rw [restored,andThen_done,bind_run,registers]
  simp only [andThen_done,Session.trapped]
  cases s.sdb.addrList[after.regs.rip-1]? with
  | some value => rfl
  | none => exact ite_run _ _ _ _

theorem checkProcess_hit (fuel : Nat) (value : Word) (opens : w.csOpen = true)
    (process : s.process = .resumed s.sdb.pid request c)
    (told : w.resume (fuel+1) s.clock request c = some (.stopped SIGTRAP after))
    (mapped : s.sdb.preAddr ≠ 0 → Mapped after.mem s.sdb.preAddr)
    (listed : s.sdb.addrList[after.regs.rip-1]? = some value) :
    ∃ rows, (checkProcess w (fuel+1)).run s = .done () {s.caught after with
      out := (s.caught after).out ++ .breakpointAt::rows
      sdb := s.sdb.afterHit (restored s.sdb.preAddr after.mem) (after.regs.rip-1) value
      process := .stopped s.sdb.pid ((after.restored s.sdb.preAddr).withRip (after.regs.rip-1))} := by
  rw [checkProcess_trapped fuel process told mapped,listed]
  exact reportHit_open (s := s.caught after) (c := after.restored s.sdb.preAddr) _ value opens rfl

theorem checkProcess_unmapped (fuel : Nat) (process : s.process = .resumed s.sdb.pid request c)
    (told : w.resume (fuel+1) s.clock request c = some (.stopped SIGTRAP after))
    (pending : s.sdb.preAddr ≠ 0) (unmapped : ¬ Mapped after.mem s.sdb.preAddr) :
    ∃ code t, (checkProcess w (fuel+1)).run s = .exited code t := by
  unfold checkProcess
  simp only [bind_run,waitpid_trapped (fuel+1) process told,andThen_done,read_run,if_true]
  obtain ⟨code,t,fails⟩ := restoreBp_unmapped (s := s.trapped after) (c := after) rfl pending unmapped
  rw [fails]
  exact ⟨code,t,rfl⟩

theorem checkProcess_exits (fuel code : Nat) (process : s.process = .resumed s.sdb.pid request c)
    (told : w.resume (fuel+1) s.clock request c = some (.ended (.exited code))) :
    ∃ text, (checkProcess w (fuel+1)).run s = .done () {s with
      process := .ended s.sdb.pid (.exited code)
      clock := s.clock+1
      statuses := s.statuses ++ [.ended (.exited code)]
      out := s.out ++ [.debug text]
      sdb := s.sdb.afterExit} := by
  unfold checkProcess
  simp only [bind_run,waitpid,process,if_true,told,andThen_done,read_run,debug_run,onSdb_run]
  exact ⟨_,rfl⟩

theorem checkProcess_killed (fuel signal : Nat) (process : s.process = .resumed s.sdb.pid request c)
    (told : w.resume (fuel+1) s.clock request c = some (.ended (.signaled signal))) :
    ∃ text, (checkProcess w (fuel+1)).run s = .done () {s with
      process := .ended s.sdb.pid (.signaled signal)
      clock := s.clock+1
      statuses := s.statuses ++ [.ended (.signaled signal)]
      out := s.out ++ [.debug text]} := by
  unfold checkProcess
  simp only [bind_run,waitpid,process,if_true,told,andThen_done,read_run,debug_run]
  exact ⟨_,rfl⟩

theorem checkProcess_signalled (fuel signal : Nat) (other : signal ≠ SIGTRAP)
    (process : s.process = .resumed s.sdb.pid request c)
    (told : w.resume (fuel+1) s.clock request c = some (.stopped signal after)) :
    ∃ text, (checkProcess w (fuel+1)).run s = .done () {s with
      process := .stopped s.sdb.pid after
      clock := s.clock+1
      statuses := s.statuses ++ [.stopped signal]
      out := s.out ++ [.debug text]} := by
  unfold checkProcess
  simp only [bind_run,waitpid,process,if_true,told,andThen_done,read_run,if_neg other,debug_run]
  exact ⟨_,rfl⟩

theorem checkProcess_waits (fuel : Nat) (process : s.process = .resumed s.sdb.pid request c)
    (told : w.resume fuel s.clock request c = none) : (checkProcess w fuel).run s = .waiting := by
  cases fuel with
  | zero => simp only [checkProcess,wait_run]
  | succ fuel =>
    unfold checkProcess
    simp only [bind_run,waitpid,process,if_true,told,andThen_waiting]

theorem si_hit (fuel : Nat) (value : Word) (opens : w.csOpen = true) (live : s.process = .stopped s.sdb.pid c)
    (running : s.sdb.state = .running) (clear : s.sdb.preAddr = 0)
    (told : w.resume (fuel+1) s.clock .singlestep c = some (.stopped SIGTRAP after))
    (listed : s.sdb.addrList[after.regs.rip-1]? = some value) :
    ∃ t rows, (si w (fuel+2)).run s = .done () t ∧
      t.process = .stopped s.sdb.pid (after.withRip (after.regs.rip-1)) ∧
      t.out = s.out ++ .breakpointAt::rows ∧ t.statuses = s.statuses ++ [.stopped SIGTRAP] := by
  have same : s.resuming .singlestep c = {s with process := .resumed s.sdb.pid .singlestep c} := by
    simp [Session.resuming,lifted,clear]
  obtain ⟨rows,returned⟩ := checkProcess_hit (s := {s with process := .resumed s.sdb.pid .singlestep c}) fuel value
    opens rfl told (fun pending => absurd clear pending) listed
  have lets := si_lets w (fuel+1) live running fun pending => absurd clear pending
  rw [same] at lets
  refine ⟨_,rows,lets.trans returned,?_,?_,rfl⟩
  · simp [Child.restored,restored,clear]
  · simp [Session.caught,SDB.resetRows,clear]

end Live

end Unixprog.Sdb
