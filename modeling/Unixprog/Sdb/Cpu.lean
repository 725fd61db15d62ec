import Unixprog.Sdb.Overlay
import Unixprog.Library.Traps

/-! A child on a deterministic CPU: single steps and continuations as the kernel
reports them, a trap byte stopping the child one past it. -/
namespace Unixprog.Sdb
open Words Runs Traps

def cpu (step : Memory → Registers → Next Registers) (size : Memory → Registers → Nat) : Machine Registers :=
  ⟨fun regs => regs.rip,step,size⟩

def reportOf : Event Registers → Report
  | .trapped m regs => .stopped SIGTRAP ((⟨m,regs⟩ : Child).withRip (regs.rip+1))
  | .ran m regs => .stopped SIGTRAP ⟨m,regs⟩
  | .exited code => .ended (.exited code)

def cpuReport (M : Machine Registers) (fuel : Nat) (request : Request) (c : Child) : Option Report :=
  match request with
  | .singlestep => some (reportOf (M.single 0xcc c.mem c.regs))
  | .cont => (M.go 0xcc fuel c.mem c.regs).map reportOf

structure World.RunsOn (w : World) (M : Machine Registers) : Prop where
  rip : ∀ regs, M.ip regs = regs.rip
  resume : ∀ fuel clock request c, w.resume fuel clock request c = cpuReport M fuel request c

theorem reports_steady (M : Machine Registers) (fuel more : Nat) (request : Request) (c : Child) (report : Report)
    (enough : fuel ≤ more) (told : cpuReport M fuel request c = some report) :
    cpuReport M more request c = some report := by
  cases request with
  | singlestep => exact told
  | cont =>
    obtain ⟨event,done,same⟩ := Option.map_eq_some_iff.mp told
    exact Option.map_eq_some_iff.mpr ⟨event,go_steady fuel more event enough done,same⟩

def cpuWorld (code : List Byte) (M : Machine Registers) : World :=
  {sampleWorld code (fun _ _ _ => .ended (.exited 0)) with
    resume := fun fuel _ request c => cpuReport M fuel request c
    steady := fun fuel more _ request c report enough told => reports_steady M fuel more request c report enough told}

theorem cpuWorld_runs (code : List Byte) (step : Memory → Registers → Next Registers)
    (size : Memory → Registers → Nat) : (cpuWorld code (cpu step size)).RunsOn (cpu step size) :=
  ⟨fun _ => rfl,fun _ _ _ _ => rfl⟩

theorem cpuWorld_nulls (code : List Byte) (M : Machine Registers) : (cpuWorld code M).NullUnmapped :=
  fun _ => rfl

def SDB.keys (d : SDB) (x : Word) : Bool := decide (x ∈ d.addrList)

def SDB.liveKeys (d : SDB) (x : Word) : Bool := decide (x ∈ d.addrList ∧ (d.preAddr ≠ 0 → x ≠ d.preAddr))

theorem keys_iff (d : SDB) (x : Word) : d.keys x = true ↔ x ∈ d.addrList := decide_eq_true_iff

theorem liveKeys_iff (d : SDB) (x : Word) :
    d.liveKeys x = true ↔ x ∈ d.addrList ∧ (d.preAddr ≠ 0 → x ≠ d.preAddr) := decide_eq_true_iff

theorem liveKeys_listed {d : SDB} {x : Word} (live : d.liveKeys x = true) : x ∈ d.addrList :=
  ((liveKeys_iff d x).mp live).1

theorem lifted_armed (d : SDB) (c : Child) (m : Memory) (memory : c.mem = armed 0xcc d.keys m)
    (agrees : d.preAddr ≠ 0 → Agrees (fun _ => True) c.mem d.preAddr d.preVal ∧
      m d.preAddr = some (byteAt d.preVal 0)) : lifted d c.mem = armed 0xcc d.liveKeys m := by
  by_cases pending : d.preAddr = 0
  · rw [lifted,if_neg (by simpa using pending),memory]
    funext x
    simp [armed,SDB.keys,SDB.liveKeys,pending]
  obtain ⟨upper,low⟩ := agrees pending
  rw [lifted,if_pos pending]
  funext x
  rw [overwrite_agrees (fun _ => True) _ _ _ x upper trivial,memory]
  by_cases here : x = d.preAddr
  · subst x
    have away : d.liveKeys d.preAddr = false := decide_eq_false fun live => live.2 pending rfl
    simp [armed,away,low]
  · simp [armed,SDB.keys,SDB.liveKeys,here]

theorem restored_armed (d : SDB) (m : Memory) (listed : d.preAddr ≠ 0 → d.preAddr ∈ d.addrList) :
    restored d.preAddr (armed 0xcc d.liveKeys m) = armed 0xcc d.keys m := by
  by_cases pending : d.preAddr = 0
  · rw [restored,if_neg (by simpa using pending)]
    funext x
    simp [armed,SDB.keys,SDB.liveKeys,pending]
  rw [restored,if_pos pending]
  funext x
  by_cases here : x = d.preAddr
  · subst x
    simp [armed,SDB.keys,listed pending]
  · simp [armed,SDB.keys,SDB.liveKeys,here]

/-! How check_process settles what the CPU reports. -/

section Settled
variable {w : World} {d e : SDB} {p : Process} {heard : List Report}

theorem settles_trap {m : Memory} {regs : Registers}
    (settles : Settles w d (reportOf (.trapped m regs)) e p heard) (listed : regs.rip ∈ d.addrList) :
    ∃ value, d.addrList[regs.rip]? = some value ∧ (d.preAddr ≠ 0 → Mapped m d.preAddr) ∧
      e = d.afterHit (restored d.preAddr m) regs.rip value ∧
      p = .stopped d.pid ⟨restored d.preAddr m,regs⟩ := by
  have back : regs.rip+1-1 = regs.rip := BitVec.add_sub_cancel _ _
  generalize told : reportOf (.trapped m regs) = report at settles
  cases settles with
  | exited d code => cases told
  | signaled d signal => cases told
  | other d signal c differs =>
    cases told
    exact absurd rfl differs
  | hit d c value mapped found =>
    cases told
    simp only [Child.withRip,back] at found mapped
    refine ⟨value,found,mapped,?_,?_⟩
    · simp only [Child.withRip,back]
    · simp only [Child.withRip,Child.restored,back]
  | pass d c mapped before _ =>
    cases told
    simp only [Child.withRip,back] at before
    exact absurd listed before
  | nested d e c mapped before _ =>
    cases told
    simp only [Child.withRip,back] at before
    exact absurd listed before

theorem settles_step {m : Memory} {regs : Registers} (settles : Settles w d (reportOf (.ran m regs)) e p heard) :
    (regs.rip-1 ∈ d.addrList ∧ ∃ c, p = .stopped d.pid c ∧ c.regs.rip = regs.rip-1) ∨
      regs.rip-1 ∉ d.addrList ∧ (d.preAddr ≠ 0 → Mapped m d.preAddr) := by
  generalize told : reportOf (.ran m regs) = report at settles
  cases settles with
  | exited d code => cases told
  | signaled d signal => cases told
  | other d signal c differs =>
    cases told
    exact absurd rfl differs
  | hit d c value mapped found =>
    cases told
    refine .inl ⟨?_,_,rfl,rfl⟩
    rw [Std.ExtTreeMap.mem_iff_isSome_getElem?,found]
    rfl
  | pass d c mapped before _ =>
    cases told
    exact .inr ⟨before,mapped⟩
  | nested d e c mapped before _ =>
    cases told
    exact .inr ⟨before,mapped⟩

theorem settles_exit {code : Nat} (settles : Settles w d (reportOf (.exited code)) e p heard) :
    e = d.afterExit ∧ p = .ended d.pid (.exited code) := by
  generalize told : reportOf (.exited code) = report at settles
  cases settles with
  | exited d code' =>
    cases told
    exact ⟨rfl,rfl⟩
  | signaled d signal => cases told
  | other d signal c differs => cases told
  | hit d c value mapped found => cases told
  | pass d c mapped before _ => cases told
  | nested d e c mapped before _ => cases told

end Settled

end Unixprog.Sdb
