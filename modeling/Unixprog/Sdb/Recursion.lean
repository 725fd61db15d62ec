import Unixprog.Sdb.Returns
import Unixprog.Sdb.Lifecycle

/-! The mutual recursion of si and check_process. Every check_process waits once, so
the statuses heard tell how many calls there were. -/
namespace Unixprog.Sdb
open Words Runs

def resumes (w : World) : Request → Nat → Op Unit
  | .singlestep => si w
  | .cont => cont w

/-- The call returns, given time enough, after one nested si at most. -/
def EndsAtOnce (w : World) (request : Request) (s : Session) : Prop :=
  ∃ enough, ∀ fuel, enough ≤ fuel → ∃ t, (resumes w request fuel).run s = .done () t ∧
    t.statuses.length ≤ s.statuses.length+2

def World.Answers (w : World) : Prop := ∀ clock request c, ∃ fuel report, w.resume fuel clock request c = some report

/-- A child that steps onto a trap and stops by SIGTRAP has executed the trap. -/
def World.TrapStops (w : World) : Prop := ∀ fuel clock c after, c.mem c.regs.rip = some 0xcc →
  w.resume fuel clock .singlestep c = some (.stopped SIGTRAP after) → after.regs.rip = c.regs.rip+1

def Nests (d : SDB) (c : Child) : Prop := c.regs.rip-1 ∉ d.addrList ∧ c.regs.rip ∈ d.addrList

/-- The child is there, the word of a pending hit can be written when it is let run and
when it stops. A stop that nests finds its trap, or what is executed instead does not nest. -/
structure StopsOnce (w : World) (request : Request) (s : Session) : Prop where
  live : ∃ c, s.process = .stopped s.sdb.pid c
  lifts : ∀ c, s.process = .stopped s.sdb.pid c → s.sdb.preAddr ≠ 0 → Mapped c.mem s.sdb.preAddr
  restores : ∀ c time after, s.process = .stopped s.sdb.pid c →
    w.resume time s.clock request {c with mem := lifted s.sdb c.mem} = some (.stopped SIGTRAP after) →
    s.sdb.preAddr ≠ 0 → Mapped after.mem s.sdb.preAddr
  trapped : ∀ c time after, s.process = .stopped s.sdb.pid c →
    w.resume time s.clock request {c with mem := lifted s.sdb c.mem} = some (.stopped SIGTRAP after) →
    Nests s.sdb after → restored s.sdb.preAddr after.mem after.regs.rip ≠ some 0xcc →
    ∀ later last, w.resume later (s.clock+1) .singlestep (after.restored s.sdb.preAddr) = some (.stopped SIGTRAP last) →
      ¬ Nests s.sdb last

def Session.nesting (s : Session) (after : Child) : Session := {s.caught after with
  process := .resumed s.sdb.pid .singlestep (after.restored s.sdb.preAddr)}

section Recursion
variable {w : World} {s : Session} {c : Child} {request : Request}

theorem resumes_lets (live : s.process = .stopped s.sdb.pid c) (running : s.sdb.state = .running)
    (mapped : s.sdb.preAddr ≠ 0 → Mapped c.mem s.sdb.preAddr) (request : Request) (fuel : Nat) :
    ∃ rest, fuel ≤ rest ∧ (resumes w request (fuel+1)).run s = (checkProcess w rest).run (s.resuming request c) := by
  cases request with
  | singlestep => exact ⟨fuel,le_rfl,si_lets w fuel live running mapped⟩
  | cont => exact ⟨fuel+1,Nat.le_succ _,cont_lets w (fuel+1) live running mapped⟩

theorem checkProcess_once (opens : w.csOpen = true) {time : Nat} {report : Report}
    (process : s.process = .resumed s.sdb.pid request c) (told : w.resume time s.clock request c = some report)
    (mapped : ∀ after, report = .stopped SIGTRAP after → s.sdb.preAddr ≠ 0 → Mapped after.mem s.sdb.preAddr)
    (flat : ∀ after, report = .stopped SIGTRAP after → ¬ Nests s.sdb after) (fuel : Nat) (enough : time ≤ fuel) :
    ∃ t, (checkProcess w (fuel+1)).run s = .done () t ∧ t.statuses.length = s.statuses.length+1 := by
  have told := w.steady time (fuel+1) _ _ _ _ (by omega) told
  have one (status : Status) : (s.statuses ++ [status]).length = s.statuses.length+1 := by simp
  cases report with
  | ended ending =>
    cases ending with
    | exited code =>
      obtain ⟨text,returned⟩ := checkProcess_exits fuel code process told
      exact ⟨_,returned,one _⟩
    | signaled signal =>
      obtain ⟨text,returned⟩ := checkProcess_killed fuel signal process told
      exact ⟨_,returned,one _⟩
  | stopped signal after =>
    by_cases trap : signal = SIGTRAP
    · subst trap
      have stands := flat after rfl
      cases before : s.sdb.addrList[after.regs.rip-1]? with
      | some value =>
        obtain ⟨rows,returned⟩ := checkProcess_hit fuel value opens process told (mapped after rfl) before
        exact ⟨_,returned,one _⟩
      | none =>
        have elsewhere : after.regs.rip ∉ s.sdb.addrList := fun here => stands ⟨(unlisted_iff _ _).mp before,here⟩
        refine ⟨s.caught after,?_,one _⟩
        rw [checkProcess_trapped fuel process told (mapped after rfl),before]
        exact if_neg elsewhere
    · obtain ⟨text,returned⟩ := checkProcess_signalled fuel signal trap process told
      exact ⟨_,returned,one _⟩

theorem checkProcess_nests {time : Nat} {after : Child} (process : s.process = .resumed s.sdb.pid request c)
    (told : w.resume time s.clock request c = some (.stopped SIGTRAP after))
    (mapped : s.sdb.preAddr ≠ 0 → Mapped after.mem s.sdb.preAddr) (nests : Nests s.sdb after) (fuel : Nat)
    (enough : time ≤ fuel) : (checkProcess w (fuel+1)).run s = (si w fuel).run (s.caught after) := by
  have told := w.steady time (fuel+1) _ _ _ _ (by omega) told
  rw [checkProcess_trapped fuel process told mapped,(unlisted_iff _ _).mpr nests.1]
  exact if_pos nests.2

theorem caught_lets (running : s.sdb.state = .running) (after : Child) (fuel : Nat) :
    (si w (fuel+1)).run (s.caught after) = (checkProcess w fuel).run (s.nesting after) := by
  have clear : (s.caught after).sdb.preAddr = 0 := rfl
  have lets := si_lets (s := s.caught after) (c := after.restored s.sdb.preAddr) w fuel rfl running
    fun pending => absurd clear pending
  rw [lets,Session.resuming,lifted,if_neg (by simp [clear])]
  rfl

theorem stops_ends (answers : w.Answers) (traps : w.TrapStops) (opens : w.csOpen = true) (running : s.sdb.state = .running)
    (stops : StopsOnce w request s) : EndsAtOnce w request s := by
  obtain ⟨c,live⟩ := stops.live
  obtain ⟨time,report,told⟩ := answers s.clock request {c with mem := lifted s.sdb c.mem}
  have mapped (after : Child) (stop : report = .stopped SIGTRAP after) (pending : s.sdb.preAddr ≠ 0) :
      Mapped after.mem s.sdb.preAddr := stops.restores c time after live (by rw [told,stop]) pending
  by_cases nested : ∃ after, report = .stopped SIGTRAP after ∧ Nests s.sdb after
  · obtain ⟨after,rfl,nests⟩ := nested
    obtain ⟨later,report,told'⟩ := answers (s.clock+1) .singlestep (after.restored s.sdb.preAddr)
    have flat (last : Child) (stop : report = .stopped SIGTRAP last) : ¬ Nests s.sdb last := by
      subst stop
      intro again
      by_cases trap : restored s.sdb.preAddr after.mem after.regs.rip = some 0xcc
      · have moved := traps later _ (after.restored s.sdb.preAddr) last trap told'
        refine again.1 ?_
        rw [moved]
        change after.regs.rip+1-1 ∈ s.sdb.addrList
        rw [BitVec.add_sub_cancel]
        exact nests.2
      · exact stops.trapped c time after live told nests trap later last told' again
    refine ⟨time+later+4,?_⟩
    intro fuel enough
    obtain ⟨fuel,rfl⟩ : ∃ k, fuel = k+1 := ⟨fuel-1,by omega⟩
    obtain ⟨rest,less,lets⟩ := resumes_lets (w := w) live running (stops.lifts c live) request fuel
    obtain ⟨rest,rfl⟩ : ∃ k, rest = k+3 := ⟨rest-3,by omega⟩
    obtain ⟨t,returned,statuses⟩ := checkProcess_once (s := s.nesting after) opens rfl told'
      (fun _ _ pending => absurd rfl pending) flat rest (by omega)
    have nested := checkProcess_nests (s := s.resuming request c) rfl told (mapped after rfl) nests (rest+2) (by omega)
    refine ⟨t,lets.trans (nested.trans ((caught_lets running after (rest+1)).trans returned)),?_⟩
    rw [statuses]
    simp [Session.nesting,Session.caught]
  · refine ⟨time+2,?_⟩
    intro fuel enough
    obtain ⟨fuel,rfl⟩ : ∃ k, fuel = k+1 := ⟨fuel-1,by omega⟩
    obtain ⟨rest,less,lets⟩ := resumes_lets (w := w) live running (stops.lifts c live) request fuel
    obtain ⟨rest,rfl⟩ : ∃ k, rest = k+1 := ⟨rest-1,by omega⟩
    obtain ⟨t,returned,statuses⟩ := checkProcess_once (s := s.resuming request c) opens rfl told mapped
      (fun after stop nests => nested ⟨after,stop,nests⟩) rest (by omega)
    refine ⟨t,by rw [lets,returned],?_⟩
    rw [statuses]
    exact Nat.le_succ _

theorem Settles.hears {d e : SDB} {report : Report} {p : Process} {heard : List Report}
    (settles : Settles w d report e p heard) : 0 < heard.length := by
  cases settles <;> exact Nat.succ_pos _

theorem checkProcess_hears {fuel : Nat} {t : Session} (process : s.process = .resumed s.sdb.pid request c)
    (running : s.sdb.state = .running) (ok : (checkProcess w fuel).run s = .done () t) :
    s.statuses.length < t.statuses.length := by
  obtain ⟨report,heard,_,settles,statuses⟩ := checkProcess_settles w fuel s t request c process running ok
  have positive := settles.hears
  rw [statuses,List.length_append,List.length_map]
  omega

theorem resumes_lifts {fuel : Nat} {t : Session} (live : s.process = .stopped s.sdb.pid c)
    (running : s.sdb.state = .running) (ok : (resumes w request fuel).run s = .done () t) :
    s.sdb.preAddr ≠ 0 → Mapped c.mem s.sdb.preAddr := by
  cases request with
  | singlestep =>
    cases fuel with
    | zero => simp [resumes,si] at ok
    | succ fuel =>
      obtain ⟨_,_,_,_,_,_,mapped⟩ := si_done w fuel s t c live running ok
      exact mapped
  | cont =>
    simp only [resumes,cont,bind_run,read_run,andThen_done,running,ne_eq,not_true_eq_false,if_false] at ok
    obtain ⟨_,u,lift,_⟩ := bind_done _ _ _ _ _ ok
    exact (liftTrap_done _ _ _ _ live lift).2.2.2.2

theorem ends_live (running : s.sdb.state = .running) (ends : EndsAtOnce w request s) :
    ∃ c, s.process = .stopped s.sdb.pid c := by
  by_contra gone
  have childless : s.tracee = none := by
    by_contra found
    obtain ⟨c,found⟩ := Option.ne_none_iff_exists'.mp found
    exact gone ⟨c,(tracee_some s c).mp found⟩
  obtain ⟨enough,ends⟩ := ends
  obtain ⟨t,returned,_⟩ := ends enough le_rfl
  cases request with
  | singlestep => exact si_childless childless running w enough t returned
  | cont => exact cont_childless childless running w enough t returned

theorem ends_check (live : s.process = .stopped s.sdb.pid c) (running : s.sdb.state = .running)
    (ends : EndsAtOnce w request s) (least : Nat) : ∃ rest t, least ≤ rest ∧
      (checkProcess w rest).run (s.resuming request c) = .done () t ∧ t.statuses.length ≤ s.statuses.length+2 := by
  obtain ⟨enough,ends⟩ := ends
  obtain ⟨t,returned,few⟩ := ends (enough+least+1) (by omega)
  obtain ⟨rest,less,lets⟩ := resumes_lets (w := w) live running (resumes_lifts live running returned) request (enough+least)
  exact ⟨rest,t,by omega,lets.symm.trans returned,few⟩

theorem ends_stops (running : s.sdb.state = .running) (ends : EndsAtOnce w request s) : StopsOnce w request s := by
  obtain ⟨c,live⟩ := ends_live running ends
  have restores (time : Nat) (after : Child)
      (told : w.resume time s.clock request {c with mem := lifted s.sdb c.mem} = some (.stopped SIGTRAP after))
      (pending : s.sdb.preAddr ≠ 0) : Mapped after.mem s.sdb.preAddr := by
    by_contra unmapped
    obtain ⟨rest,t,more,returned,_⟩ := ends_check live running ends (time+1)
    obtain ⟨rest,rfl⟩ : ∃ k, rest = k+1 := ⟨rest-1,by omega⟩
    obtain ⟨code,u,fails⟩ := checkProcess_unmapped (s := s.resuming request c) rest rfl
      (w.steady time (rest+1) _ _ _ _ (by omega) told) pending unmapped
    rw [fails] at returned
    cases returned
  refine ⟨⟨c,live⟩,?_,?_,?_⟩
  · intro c' live' pending
    rw [live] at live'
    cases live'
    obtain ⟨enough,ends⟩ := ends
    obtain ⟨t,returned,_⟩ := ends enough le_rfl
    exact resumes_lifts live running returned pending
  · intro c' time after live' told
    rw [live] at live'
    cases live'
    exact restores time after told
  · intro c' time after live' told nests _ later last told' again
    rw [live] at live'
    cases live'
    -- The third check_process would hear a third status.
    obtain ⟨rest,t,more,returned,few⟩ := ends_check live running ends (time+later+5)
    obtain ⟨rest,rfl⟩ : ∃ k, rest = k+4 := ⟨rest-4,by omega⟩
    rw [checkProcess_nests (s := s.resuming request c) rfl told (restores time after told) nests (rest+3) (by omega)] at returned
    have second := (caught_lets (s := s.resuming request c) running after (rest+2)).symm.trans returned
    have deeper := checkProcess_nests (s := s.nesting after) rfl told' (fun pending => absurd rfl pending) again (rest+1)
      (by omega)
    have second := deeper.symm.trans second
    have third := (caught_lets (s := s.nesting after) running last rest).symm.trans second
    have heard := checkProcess_hears (s := (s.nesting after).nesting last) rfl running third
    simp [Session.nesting,Session.caught] at heard
    omega

end Recursion

/-- A call of si or of cont returns after one nested si at most exactly if the child is
there and stops once, trap bytes that are missing not leading it on. -/
theorem ends_at_once_iff (w : World) (answers : w.Answers) (traps : w.TrapStops) (opens : w.csOpen = true) (s : Session)
    (running : s.sdb.state = .running) (request : Request) : EndsAtOnce w request s ↔ StopsOnce w request s :=
  ⟨ends_stops running,stops_ends answers traps opens running⟩

/-! nop at 0x1000, then a jump to itself. A child that is continued is stopped from outside. -/

def jumpKernel (_ : Nat) : Request → Child → Report
  | .cont,c => .stopped 19 c
  | .singlestep,c =>
    if c.mem c.regs.rip = some 0xcc then .stopped SIGTRAP (c.withRip (c.regs.rip+1))
    else .stopped SIGTRAP (if c.regs.rip = 0x1000 then c.withRip 0x1001 else c)

def jumpWorld : World := sampleWorld [0x90,0xeb,0xfe] jumpKernel

theorem jump_answers : jumpWorld.Answers := fun clock request c => ⟨0,jumpKernel clock request c,rfl⟩

theorem jump_traps : jumpWorld.TrapStops := by
  intro fuel clock c after trap told
  change some (jumpKernel clock .singlestep c) = _ at told
  rw [jumpKernel,if_pos trap] at told
  cases told
  rfl

def lostTrap : List Command := [.load "a.out",.start,.break 0x1000,.break 0x1001,.delete 0]

/-- si steps from the nop to the jump, and from there to the jump, and so on. -/
theorem recursion_never_ends : Reachable (debugger jumpWorld) (sampleSession jumpWorld lostTrap) ∧
    (sampleSession jumpWorld lostTrap).sdb.state = .running ∧ jumpWorld.Answers ∧ jumpWorld.TrapStops ∧
    jumpWorld.csOpen = true ∧ ¬ EndsAtOnce jumpWorld .singlestep (sampleSession jumpWorld lostTrap) := by
  refine ⟨sample_reachable _ _,rfl,jump_answers,jump_traps,rfl,fun ends => ?_⟩
  have stops := ends_stops rfl ends
  have unlisted : (0x1001-1 : Word) ∉ (sampleSession jumpWorld lostTrap).sdb.addrList := by decide
  have listed : (0x1001 : Word) ∈ (sampleSession jumpWorld lostTrap).sdb.addrList := by decide
  have nests (c : Child) : Nests (sampleSession jumpWorld lostTrap).sdb (c.withRip 0x1001) := ⟨unlisted,listed⟩
  exact stops.trapped _ 0 _ rfl rfl (nests _) (by decide) 0 _ rfl (nests _)

theorem ends_at_once_iff_trapped :
    EndsAtOnce jumpWorld .singlestep (sampleSession jumpWorld [.load "a.out",.start,.break 0x1001]) := by
  refine (ends_at_once_iff jumpWorld jump_answers jump_traps rfl _ rfl .singlestep).mpr ⟨⟨_,rfl⟩,?_,?_,?_⟩
  · exact fun c live pending => absurd rfl pending
  · exact fun c time after live told pending => absurd rfl pending
  · intro c time after live told nests bare
    cases live
    cases told
    exact absurd (by decide) bare

end Unixprog.Sdb
