import Unixprog.Sdb.Cpu
import Unixprog.Sdb.Bookkeeping
import Unixprog.Sdb.Returns

/-! What cont does from a prompt, against the control flow of the child. A trap
that cont takes out stays out until the child stops the next time. -/
namespace Unixprog.Sdb
open Words Runs Traps

/-! Control, as it goes on from a prompt. -/

/-- The memory with the program's own byte under the hit that is pending. -/
def underway (w : World) (d : SDB) (m : Memory) : Memory :=
  if d.preAddr ≠ 0 then Function.update m d.preAddr (w.image d.programName d.preAddr) else m

def control (w : World) (M : Machine Registers) (d : SDB) (c : Child) : Nat → Next Registers :=
  M.flow (underway w d c.mem) c.regs

/-- A listed address counts, at the current instruction only if its hit is not the pending one. -/
def Counts (d : SDB) (j : Nat) (regs : Registers) : Prop :=
  regs.rip ∈ d.addrList ∧ (j = 0 → d.preAddr ≠ 0 → regs.rip ≠ d.preAddr)

structure FirstListed (w : World) (M : Machine Registers) (d : SDB) (c : Child) (j : Nat) (m : Memory)
    (regs : Registers) : Prop where
  here : control w M d c j = .ran m regs
  counts : Counts d j regs
  first : ∀ i < j, ∀ m' regs', control w M d c i = .ran m' regs' → ¬ Counts d i regs'

structure StopsAt (s : Session) (m : Memory) (regs : Registers) (t : Session) : Prop where
  child : ∃ c, t.process = .stopped s.sdb.pid c ∧ c.regs = regs ∧
    ∀ x, (s.sdb.preAddr ≠ 0 → x ≠ s.sdb.preAddr) → c.mem x = m x
  pending : t.sdb.preAddr = regs.rip
  reported : ∃ shown, t.out = s.out ++ shown ∧ .breakpointAt ∈ shown

def ContReturns (w : World) (s : Session) (post : Session → Prop) : Prop :=
  ∃ enough, ∀ fuel, enough ≤ fuel → ∃ t, (cont w fuel).run s = .done () t ∧ post t

/-- cont stops at the first listed address that control reaches. If there is none it
waits for the exit, however long the child runs. -/
structure RunsNothingOver (w : World) (M : Machine Registers) (s : Session) (c : Child) : Prop where
  stops : ∀ j m regs, FirstListed w M s.sdb c j m regs → ContReturns w s (StopsAt s m regs)
  ends : (∀ j m regs, ¬ FirstListed w M s.sdb c j m regs) → ∀ n code, control w M s.sdb c n = .exited code →
    ContReturns w s fun t => t.process = .ended s.sdb.pid (.exited code)
  lasts : (∀ j m regs, ¬ FirstListed w M s.sdb c j m regs) → (∀ n code, control w M s.sdb c n ≠ .exited code) →
    ∀ fuel, (cont w fuel).run s = .waiting

def Unstopped (w : World) (M : Machine Registers) (d : SDB) (c : Child) (j : Nat) : Prop :=
  ∀ i < j, ∀ m regs, control w M d c i = .ran m regs → d.liveKeys regs.rip = false

def ownByte (w : World) (d : SDB) (m : Memory) (x : Word) : Option Byte :=
  if d.inText x then w.image d.programName x else m x

/-- Up to its next stop the child does not write its .text nor come to a trap of its own. -/
structure Harmless (w : World) (M : Machine Registers) (d : SDB) (c : Child) : Prop where
  keeps : ∀ j m regs, Unstopped w M d c j → control w M d c j = .ran m regs →
    ∀ x, d.text x → m x = underway w d c.mem x
  clean : ∀ j m regs, Unstopped w M d c j → control w M d c j = .ran m regs →
    ownByte w d m regs.rip ≠ some 0xcc

def UpToDate (w : World) (d : SDB) (c : Child) : Prop :=
  d.preAddr ≠ 0 → Agrees everywhere c.mem d.preAddr d.preVal ∧
    w.image d.programName d.preAddr = some (byteAt d.preVal 0)

section Control
variable {w : World} {M : Machine Registers} {d : SDB} {c : Child}

theorem lifted_underway (fresh : UpToDate w d c) : lifted d c.mem = underway w d c.mem := by
  by_cases pending : d.preAddr = 0
  · rw [lifted,underway,if_neg (by simpa using pending),if_neg (by simpa using pending)]
  · obtain ⟨upper,low⟩ := fresh pending
    rw [lifted,underway,if_pos pending,if_pos pending,low]
    funext x
    exact overwrite_agrees everywhere c.mem d.preAddr d.preVal x upper trivial

theorem pending_mapped (fresh : UpToDate w d c) (overlaid : ∀ x, d.text x → c.mem x = w.goal d x)
    (inside : d.preAddr ≠ 0 → d.text d.preAddr) (pending : d.preAddr ≠ 0) : Mapped c.mem d.preAddr := by
  obtain ⟨upper,low⟩ := fresh pending
  intro i small
  cases i with
  | zero =>
    rw [show d.preAddr+BitVec.ofNat 64 0 = d.preAddr by simp,overlaid _ (inside pending),World.goal,overlay]
    split
    · rfl
    · rw [low]
      rfl
  | succ i =>
    rw [upper (i+1) (by omega) small trivial]
    rfl

theorem underway_text (overlaid : ∀ x, d.text x → c.mem x = w.goal d x) (x : Word) (inside : d.text x) :
    underway w d c.mem x = if d.liveKeys x then some 0xcc else w.image d.programName x := by
  by_cases pending : d.preAddr = 0
  · rw [underway,if_neg (by simpa using pending),overlaid x inside]
    simp [World.goal,overlay,SDB.liveKeys,pending]
  · rw [underway,if_pos pending]
    by_cases here : x = d.preAddr
    · subst x
      have away : d.liveKeys d.preAddr = false := decide_eq_false fun live => live.2 pending rfl
      simp [away]
    · rw [Function.update_of_ne here,overlaid x inside]
      simp [World.goal,overlay,SDB.liveKeys,here]

theorem meets_trap (harmless : Harmless w M d c) (overlaid : ∀ x, d.text x → c.mem x = w.goal d x)
    (text : ∀ a ∈ d.addrList, d.text a) {j : Nat} {m : Memory} {regs : Registers}
    (unstopped : Unstopped w M d c j) (here : control w M d c j = .ran m regs) :
    m regs.rip = some 0xcc ↔ d.liveKeys regs.rip = true := by
  have own := harmless.clean j m regs unstopped here
  by_cases inside : d.inText regs.rip = true
  · rw [ownByte,if_pos inside] at own
    rw [harmless.keeps j m regs unstopped here _ inside,underway_text overlaid _ inside]
    split
    next live => simp [live]
    next clear => exact ⟨fun trap => absurd trap own,fun live => absurd live clear⟩
  · rw [ownByte,if_neg inside] at own
    refine ⟨fun trap => absurd trap own,fun live => ?_⟩
    exact absurd (text _ ((liveKeys_iff d _).mp live).1) inside

theorem live_counts {j : Nat} {regs : Registers} (live : d.liveKeys regs.rip = true) : Counts d j regs :=
  ⟨((liveKeys_iff d _).mp live).1,fun _ => ((liveKeys_iff d _).mp live).2⟩

theorem FirstListed.unstopped {j : Nat} {m : Memory} {regs : Registers} (listed : FirstListed w M d c j m regs) :
    Unstopped w M d c j := by
  intro i bound m' regs' before
  have passed := listed.first i bound m' regs' before
  exact Bool.eq_false_iff.mpr fun live => passed (live_counts live)

theorem none_unstopped (none : ∀ j m regs, ¬ FirstListed w M d c j m regs) (j : Nat) : Unstopped w M d c j := by
  intro i _ m regs here
  obtain ⟨n,m',regs',there,counts,first⟩ | never := flow_first M (underway w d c.mem) c.regs (Counts d)
  · exact absurd ⟨there,counts,first⟩ (none n m' regs')
  · exact Bool.eq_false_iff.mpr fun live => never i m regs here (live_counts live)

end Control

/-- A prompt with the traps in place and the word of the pending hit up to date. -/
structure Poised (w : World) (M : Machine Registers) (s : Session) (c : Child) : Prop where
  runs : w.RunsOn M
  live : s.process = .stopped s.sdb.pid c
  running : s.sdb.state = .running
  overlaid : ∀ x, s.sdb.text x → c.mem x = w.goal s.sdb x
  text : ∀ a ∈ s.sdb.addrList, s.sdb.text a
  inside : s.sdb.preAddr ≠ 0 → s.sdb.text s.sdb.preAddr
  harmless : Harmless w M s.sdb c
  fresh : UpToDate w s.sdb c

section Prompt
variable {w : World} {M : Machine Registers} {s : Session} {c : Child}

theorem cont_underway (poised : Poised w M s c) (fuel : Nat) :
    (cont w fuel).run s = (checkProcess w fuel).run
      {s with process := .resumed s.sdb.pid .cont {c with mem := underway w s.sdb c.mem}} := by
  rw [cont_lets w fuel poised.live poised.running
    (pending_mapped poised.fresh poised.overlaid poised.inside),Session.resuming,lifted_underway poised.fresh]

theorem told_underway (poised : Poised w M s c) (time clock : Nat) :
    w.resume time clock .cont {c with mem := underway w s.sdb c.mem} =
      (M.go 0xcc time (underway w s.sdb c.mem) c.regs).map reportOf := poised.runs.resume _ _ _ _

theorem poised_meets (poised : Poised w M s c) {j : Nat} {m : Memory} {regs : Registers}
    (unstopped : Unstopped w M s.sdb c j) (here : control w M s.sdb c j = .ran m regs) :
    m (M.ip regs) = some 0xcc ↔ s.sdb.liveKeys regs.rip = true := by
  rw [poised.runs.rip]
  exact meets_trap poised.harmless poised.overlaid poised.text unstopped here

theorem unstopped_clean (poised : Poised w M s c) {n : Nat} (unstopped : Unstopped w M s.sdb c n) (k : Nat)
    (bound : k < n) (m : Memory) (regs : Registers) (here : control w M s.sdb c k = .ran m regs) :
    m (M.ip regs) ≠ some 0xcc := by
  intro trap
  have shorter : Unstopped w M s.sdb c k := fun i less => unstopped i (Nat.lt_trans less bound)
  have live := (poised_meets poised shorter here).mp trap
  rw [unstopped k bound m regs here] at live
  cases live

theorem clean_unstopped (poised : Poised w M s c) (n : Nat)
    (clean : ∀ k < n, ∀ m regs, control w M s.sdb c k = .ran m regs → m (M.ip regs) ≠ some 0xcc) :
    Unstopped w M s.sdb c n := by
  induction n with
  | zero => exact fun i bound => absurd bound (Nat.not_lt_zero i)
  | succ n ih =>
    have shorter := ih fun k bound => clean k (by omega)
    intro i bound m regs here
    by_cases last : i = n
    · subst i
      refine Bool.eq_false_iff.mpr fun live => clean n bound m regs here ?_
      exact (poised_meets poised shorter here).mpr live
    · exact shorter i (by omega) m regs here

theorem cont_cases (poised : Poised w M s c) (fuel : Nat) (t : Session) (ok : (cont w fuel).run s = .done () t) :
    (∃ n m regs, Unstopped w M s.sdb c n ∧ control w M s.sdb c n = .ran m regs ∧
        s.sdb.liveKeys regs.rip = true ∧ t.sdb.preAddr = regs.rip ∧
        (s.sdb.preAddr ≠ 0 → Mapped m s.sdb.preAddr)) ∨
      ∃ code, t.process = .ended s.sdb.pid (.exited code) := by
  rw [cont_underway poised] at ok
  obtain ⟨report,heard,told,settles,_⟩ := checkProcess_settles w fuel
    {s with process := .resumed s.sdb.pid .cont {c with mem := underway w s.sdb c.mem}} t _ _ rfl poised.running ok
  rw [told_underway poised,Option.map_eq_some_iff] at told
  obtain ⟨event,went,rfl⟩ := told
  obtain ⟨n,clean,⟨m,regs,here,trap,rfl⟩ | ⟨code,_,rfl⟩⟩ := go_some fuel went
  · left
    have unstopped := clean_unstopped poised n clean
    have live := (poised_meets poised unstopped here).mp trap
    obtain ⟨value,_,mapped,after,_⟩ := settles_trap settles (liveKeys_listed live)
    exact ⟨n,m,regs,unstopped,here,live,congrArg SDB.preAddr after,mapped⟩
  · exact .inr ⟨code,(settles_exit settles).2⟩

theorem cont_hits (poised : Poised w M s c) (opens : w.csOpen = true) {n : Nat} {m : Memory} {regs : Registers}
    (unstopped : Unstopped w M s.sdb c n) (here : control w M s.sdb c n = .ran m regs)
    (live : s.sdb.liveKeys regs.rip = true) (mapped : s.sdb.preAddr ≠ 0 → Mapped m s.sdb.preAddr) :
    ContReturns w s (StopsAt s m regs) := by
  refine ⟨n+1,?_⟩
  intro fuel enough
  obtain ⟨fuel,rfl⟩ : ∃ k, fuel = k+1 := ⟨fuel-1,by omega⟩
  have trap := (poised_meets poised unstopped here).mpr live
  have listed := liveKeys_listed live
  have back : regs.rip+1-1 = regs.rip := BitVec.add_sub_cancel _ _
  obtain ⟨value,found⟩ := Option.isSome_iff_exists.mp (Std.ExtTreeMap.mem_iff_isSome_getElem?.mp listed)
  have told : w.resume (fuel+1) s.clock .cont {c with mem := underway w s.sdb c.mem} =
      some (.stopped SIGTRAP ((⟨m,regs⟩ : Child).withRip (regs.rip+1))) := by
    rw [told_underway poised,go_trapped n here (unstopped_clean poised unstopped) trap,if_pos (by omega)]
    rfl
  obtain ⟨rows,returned⟩ := checkProcess_hit
    (s := {s with process := .resumed s.sdb.pid .cont {c with mem := underway w s.sdb c.mem}}) fuel value opens
    rfl told mapped (by simpa only [Child.withRip,back] using found)
  rw [← cont_underway poised] at returned
  refine ⟨_,returned,⟨_,rfl,?_,?_⟩,back,_,List.append_assoc _ _ _,List.mem_append_right _ List.mem_cons_self⟩
  · simp only [Child.withRip,Child.restored,back]
  · intro x other
    by_cases clear : s.sdb.preAddr = 0
    · simp [Child.withRip,Child.restored,restored,clear]
    · simp only [Child.withRip,Child.restored,restored,if_pos clear,ne_eq]
      exact Function.update_of_ne (other clear) _ _

theorem cont_exits (poised : Poised w M s c) {n code : Nat} (done : control w M s.sdb c n = .exited code)
    (never : ∀ j, Unstopped w M s.sdb c j) : ContReturns w s fun t => t.process = .ended s.sdb.pid (.exited code) := by
  refine ⟨n+1,?_⟩
  intro fuel enough
  obtain ⟨fuel,rfl⟩ : ∃ k, fuel = k+1 := ⟨fuel-1,by omega⟩
  have told : w.resume (fuel+1) s.clock .cont {c with mem := underway w s.sdb c.mem} =
      some (.ended (.exited code)) := by
    rw [told_underway poised,go_exited n done ?clean _ (by omega)]
    case clean => exact fun k => unstopped_clean poised (never (k+1)) k (Nat.lt_succ_self k)
    rfl
  obtain ⟨text,returned⟩ := checkProcess_exits
    (s := {s with process := .resumed s.sdb.pid .cont {c with mem := underway w s.sdb c.mem}}) fuel code rfl told
  exact ⟨_,by rw [cont_underway poised,returned],rfl⟩

theorem cont_lasts (poised : Poised w M s c) (endless : ∀ n code, control w M s.sdb c n ≠ .exited code)
    (never : ∀ j, Unstopped w M s.sdb c j) (fuel : Nat) : (cont w fuel).run s = .waiting := by
  rw [cont_underway poised]
  refine checkProcess_waits _ rfl ?_
  rw [told_underway poised]
  cases here : control w M s.sdb c fuel with
  | exited code => exact absurd here (endless fuel code)
  | ran m regs =>
    rw [go_short fuel here (unstopped_clean poised (never fuel))]
    rfl

theorem poised_nothing_over_iff (poised : Poised w M s c) (opens : w.csOpen = true) :
    RunsNothingOver w M s c ↔ ∀ j m regs, FirstListed w M s.sdb c j m regs → s.sdb.preAddr ≠ 0 →
      regs.rip ≠ s.sdb.preAddr ∧ Mapped m s.sdb.preAddr := by
  constructor
  · intro nothing j m regs listed pending
    obtain ⟨enough,returns⟩ := nothing.stops j m regs listed
    obtain ⟨t,returned,stops⟩ := returns enough le_rfl
    obtain ⟨n,m',regs',unstopped,here,live,hit,mapped⟩ | ⟨code,gone⟩ := cont_cases poised enough t returned
    · have away : regs.rip ≠ s.sdb.preAddr := by
        rw [← stops.pending,hit]
        exact ((liveKeys_iff _ _).mp live).2 pending
      have alive : s.sdb.liveKeys regs.rip = true := (liveKeys_iff _ _).mpr ⟨listed.counts.1,fun _ => away⟩
      -- Both are the first trap in place.
      have same : n = j := by
        obtain before | same | after := Nat.lt_trichotomy n j
        · rw [listed.unstopped n before m' regs' here] at live
          cases live
        · exact same
        · rw [unstopped j after m regs listed.here] at alive
          cases alive
      subst n
      have here' := here.symm.trans listed.here
      cases here'
      exact ⟨away,mapped pending⟩
    · obtain ⟨c',stopped,_⟩ := stops.child
      rw [gone] at stopped
      cases stopped
  · intro condition
    refine ⟨?_,?_,?_⟩
    · intro j m regs listed
      have live : s.sdb.liveKeys regs.rip = true := (liveKeys_iff _ _).mpr
        ⟨listed.counts.1,fun pending => (condition j m regs listed pending).1⟩
      exact cont_hits poised opens listed.unstopped listed.here live
        fun pending => (condition j m regs listed pending).2
    · intro none n code done
      exact cont_exits poised done (none_unstopped none)
    · intro none endless
      exact cont_lasts poised endless (none_unstopped none)

end Prompt

/-- From a prompt whose traps are in place, cont runs no breakpoint over exactly if
control does not come back to the breakpoint it leaves before another one, whose
trap can then be put back. -/
theorem nothing_run_over_iff (w : World) (M : Machine Registers) (s : Session) (c : Child) (runs : w.RunsOn M)
    (opens : w.csOpen = true) (reached : Reachable (debugger w) s) (live : s.process = .stopped s.sdb.pid c)
    (overlaid : Overlaid w s.sdb s.process) (harmless : Harmless w M s.sdb c) (fresh : UpToDate w s.sdb c) :
    RunsNothingOver w M s c ↔ ∀ j m regs, FirstListed w M s.sdb c j m regs → s.sdb.preAddr ≠ 0 →
      regs.rip ≠ s.sdb.preAddr ∧ Mapped m s.sdb.preAddr := by
  obtain ⟨text,inside⟩ := reachable_text reached
  have running := stopped_running (reachable_phase reached) live
  exact poised_nothing_over_iff ⟨runs,live,running,overlaid c live,text,inside,harmless,fresh⟩ opens

/-! A program of one instruction: a jump to itself, two bytes long. -/

def spinCpu : Machine Registers := cpu (fun m regs => .ran m regs) fun _ _ => 2

def spinWorld : World := cpuWorld [0xeb,0xfe] spinCpu

def spinning : Child := ⟨Function.update (samplePage [0xeb,0xfe]) 0x1000 (some 0xcc),sampleRegs 0x1000⟩

def armedSpin : List Command := [.load "a.out",.start,.break 0x1000]

def hitSpin : List Command := armedSpin ++ [.cont]

theorem spin_child : (overwrite (samplePage [0xeb,0xfe]) 0x1000 fun i =>
    some (byteAt (trapWord 0x909090909090feeb) i)) = spinning.mem := overwrite_trap _ _ _ rfl

theorem armed_stopped : (sampleSession spinWorld armedSpin).process = .stopped 7 spinning := by
  rw [show spinning = ⟨spinning.mem,sampleRegs 0x1000⟩ from rfl,← spin_child]
  rfl

theorem hit_stopped : (sampleSession spinWorld hitSpin).process = .stopped 7 spinning := by
  rw [show spinning = ⟨spinning.mem,sampleRegs 0x1000⟩ from rfl,← spin_child]
  rfl

theorem spin_control (d : SDB) (c : Child) (n : Nat) :
    control spinWorld spinCpu d c n = .ran (underway spinWorld d c.mem) c.regs := by
  induction n with
  | zero => rfl
  | succ n ih => exact flow_succ n ih

theorem spin_harmless (d : SDB) (inside : d.inText 0x1000 = true) : Harmless spinWorld spinCpu d spinning := by
  refine ⟨?_,?_⟩
  · intro j m regs _ here x _
    rw [spin_control] at here
    cases here
    rfl
  · intro j m regs _ here
    rw [spin_control] at here
    cases here
    rw [ownByte,show spinning.regs.rip = 0x1000 from rfl,if_pos inside]
    change samplePage [0xeb,0xfe] 0x1000 ≠ some 0xcc
    decide

theorem spin_fresh : UpToDate spinWorld (sampleSession spinWorld hitSpin).sdb spinning := by
  intro _
  refine ⟨?_,by decide⟩
  intro i positive small _
  interval_cases i <;> decide

theorem spin_boundary (a : Word) (away : a ≠ 0x1001) :
    Boundary spinCpu (samplePage [0xeb,0xfe]) (sampleRegs 0x1000) a := by
  intro n m regs i here positive small same
  have still : spinCpu.flow (samplePage [0xeb,0xfe]) (sampleRegs 0x1000) n =
      .ran (samplePage [0xeb,0xfe]) (sampleRegs 0x1000) := by
    clear here
    induction n with
    | zero => rfl
    | succ n ih => exact flow_succ n ih
  rw [still] at here
  cases here
  obtain rfl : i = 1 := by
    change i < 2 at small
    omega
  exact away same.symm

/-- The breakpoint on the jump is not met again, though control is back at once. -/
theorem spin_runs_over : Reachable (debugger spinWorld) (sampleSession spinWorld hitSpin) ∧
    spinWorld.RunsOn spinCpu ∧ spinWorld.csOpen = true ∧
    (sampleSession spinWorld hitSpin).sdb.state = .running ∧
    (sampleSession spinWorld hitSpin).process = .stopped (sampleSession spinWorld hitSpin).sdb.pid spinning ∧
    Overlaid spinWorld (sampleSession spinWorld hitSpin).sdb (sampleSession spinWorld hitSpin).process ∧
    (∀ a ∈ (sampleSession spinWorld hitSpin).sdb.addrList,
      Boundary spinCpu (samplePage [0xeb,0xfe]) (sampleRegs 0x1000) a) ∧
    Harmless spinWorld spinCpu (sampleSession spinWorld hitSpin).sdb spinning ∧
    UpToDate spinWorld (sampleSession spinWorld hitSpin).sdb spinning ∧
    ¬ RunsNothingOver spinWorld spinCpu (sampleSession spinWorld hitSpin) spinning := by
  have overlaid : Overlaid spinWorld (sampleSession spinWorld hitSpin).sdb
      (sampleSession spinWorld hitSpin).process := by
    rw [hit_stopped]
    exact one_overlaid rfl rfl 7
  have text := reachable_text (sample_reachable spinWorld hitSpin)
  have poised : Poised spinWorld spinCpu (sampleSession spinWorld hitSpin) spinning :=
    ⟨cpuWorld_runs _ _ _,hit_stopped,rfl,overlaid spinning hit_stopped,text.1,text.2,spin_harmless _ rfl,spin_fresh⟩
  refine ⟨sample_reachable _ _,cpuWorld_runs _ _ _,rfl,rfl,hit_stopped,overlaid,?_,spin_harmless _ rfl,spin_fresh,?_⟩
  · intro a listed
    refine spin_boundary a ?_
    rintro rfl
    revert listed
    decide
  · intro nothing
    have again : FirstListed spinWorld spinCpu (sampleSession spinWorld hitSpin).sdb spinning 1
        (underway spinWorld (sampleSession spinWorld hitSpin).sdb spinning.mem) spinning.regs := by
      refine ⟨spin_control _ _ 1,⟨by decide,fun first => absurd first (by decide)⟩,?_⟩
      intro i bound m regs here counts
      obtain rfl : i = 0 := by omega
      rw [spin_control] at here
      cases here
      exact counts.2 rfl (by decide) rfl
    exact ((poised_nothing_over_iff poised rfl).mp nothing 1 _ _ again (by decide)).1 rfl

theorem nothing_run_over_iff_armed : RunsNothingOver spinWorld spinCpu (sampleSession spinWorld armedSpin) spinning := by
  refine (nothing_run_over_iff spinWorld spinCpu _ spinning (cpuWorld_runs _ _ _) rfl (sample_reachable _ _)
    armed_stopped ?_ (spin_harmless _ rfl) (fun pending => absurd rfl pending)).mpr ?_
  · rw [armed_stopped]
    exact one_overlaid rfl rfl 7
  · intro j m regs _ pending
    exact absurd rfl pending

end Unixprog.Sdb
