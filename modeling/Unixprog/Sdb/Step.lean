import Unixprog.Sdb.Continue
import Unixprog.Sdb.Transparency

/-! What si does from a prompt, against one instruction of the program. After the
step check_process looks at rip-1 first, then at rip. -/
namespace Unixprog.Sdb
open Words Runs Traps

def Reported (d : SDB) (regs : Registers) : Prop := d.preAddr ≠ 0 ∧ regs.rip = d.preAddr

def Executes (d : SDB) (regs : Registers) : Prop := regs.rip ∈ d.addrList → Reported d regs

def SiReturns (w : World) (s : Session) (post : Session → Prop) : Prop :=
  ∃ enough, ∀ fuel, enough ≤ fuel → ∃ t, (si w fuel).run s = .done () t ∧ post t

/-- In `t` the child of `s` is stopped with these registers and this data, and a
breakpoint is reported exactly if `hit`. -/
structure Halts (s : Session) (m : Memory) (regs : Registers) (hit : Prop) (t : Session) : Prop where
  child : ∃ c, t.process = .stopped s.sdb.pid c ∧ c.regs = regs ∧ ∀ x, ¬ s.sdb.text x → c.mem x = m x
  reported : ∃ shown, t.out = s.out ++ shown ∧ (.breakpointAt ∈ shown ↔ hit)

/-- si is one step of the program, its memory being .text as loaded and the child's data. -/
structure OneStep (w : World) (M : Machine Registers) (s : Session) (c : Child) : Prop where
  reports : ¬ Executes s.sdb c.regs → SiReturns w s (Halts s c.mem c.regs True)
  runs : Executes s.sdb c.regs → ∀ m regs, M.step (ownByte w s.sdb c.mem) c.regs = .ran m regs →
    SiReturns w s (Halts s m regs (regs.rip ∈ s.sdb.addrList))
  exits : Executes s.sdb c.regs → ∀ code, M.step (ownByte w s.sdb c.mem) c.regs = .exited code →
    SiReturns w s fun t => t.process = .ended s.sdb.pid (.exited code)

/-- The next instruction is no trap of the program's own, and does not write .text; and it does under the
traps what it does without them: none of the bytes it reads is hidden by one. -/
structure PlainStep (w : World) (M : Machine Registers) (d : SDB) (c : Child) : Prop where
  clean : ownByte w d c.mem c.regs.rip ≠ some 0xcc
  same : Executes d c.regs → SameStep d.text (ownByte w d c.mem) (underway w d c.mem)
    (M.step (ownByte w d c.mem) c.regs) (M.step (underway w d c.mem) c.regs)

/-- A prompt with the traps in place and the word of the pending hit up to date. -/
structure Ready (w : World) (M : Machine Registers) (s : Session) (c : Child) : Prop where
  runs : w.RunsOn M
  opens : w.csOpen = true
  live : s.process = .stopped s.sdb.pid c
  running : s.sdb.state = .running
  overlaid : ∀ x, s.sdb.text x → c.mem x = w.goal s.sdb x
  text : ∀ a ∈ s.sdb.addrList, s.sdb.text a
  inside : s.sdb.preAddr ≠ 0 → s.sdb.text s.sdb.preAddr
  plain : PlainStep w M s.sdb c
  fresh : UpToDate w s.sdb c

section Step
variable {w : World} {M : Machine Registers} {s : Session} {c : Child}

theorem executes_clear {d : SDB} {regs : Registers} (executes : Executes d regs) : d.liveKeys regs.rip = false := by
  refine Bool.eq_false_iff.mpr fun live => ?_
  obtain ⟨listed,away⟩ := (liveKeys_iff d _).mp live
  obtain ⟨pending,here⟩ := executes listed
  exact away pending here

theorem not_executes_live {d : SDB} {regs : Registers} (stays : ¬ Executes d regs) : d.liveKeys regs.rip = true := by
  obtain ⟨listed,fresh⟩ := Classical.not_imp.mp stays
  exact (liveKeys_iff d _).mpr ⟨listed,fun pending here => fresh ⟨pending,here⟩⟩

theorem ownByte_text {d : SDB} {m : Memory} {x : Word} (inside : d.text x) :
    ownByte w d m x = w.image d.programName x := if_pos inside

theorem ownByte_data {d : SDB} {m : Memory} {x : Word} (outside : ¬ d.text x) : ownByte w d m x = m x := if_neg outside

theorem underway_data {d : SDB} {m : Memory} (inside : d.preAddr ≠ 0 → d.text d.preAddr) (x : Word)
    (outside : ¬ d.text x) : underway w d m x = m x := by
  by_cases pending : d.preAddr = 0
  · rw [underway,if_neg (by simpa using pending)]
  · rw [underway,if_pos pending,Function.update_of_ne]
    rintro rfl
    exact outside (inside pending)

theorem underway_own (ready : Ready w M s c) (x : Word) (clear : s.sdb.liveKeys x = false) :
    underway w s.sdb c.mem x = ownByte w s.sdb c.mem x := by
  by_cases within : s.sdb.text x
  · rw [underway_text ready.overlaid x within,clear,ownByte_text within]
    rfl
  · rw [underway_data ready.inside x within,ownByte_data within]

theorem si_underway (ready : Ready w M s c) (fuel : Nat) :
    (si w (fuel+1)).run s = (checkProcess w fuel).run
      {s with process := .resumed s.sdb.pid .singlestep {c with mem := underway w s.sdb c.mem}} := by
  rw [si_lets w fuel ready.live ready.running (pending_mapped ready.fresh ready.overlaid ready.inside),Session.resuming,
    lifted_underway ready.fresh]

theorem steps_underway (ready : Ready w M s c) (fuel : Nat) :
    w.resume fuel s.clock .singlestep {c with mem := underway w s.sdb c.mem} =
      some (reportOf (M.single 0xcc (underway w s.sdb c.mem) c.regs)) := ready.runs.resume _ _ _ _

theorem executes_clean (ready : Ready w M s c) (executes : Executes s.sdb c.regs) :
    underway w s.sdb c.mem (M.ip c.regs) ≠ some 0xcc := by
  rw [ready.runs.rip,underway_own ready _ (executes_clear executes)]
  exact ready.plain.clean

def StepLands (w : World) (M : Machine Registers) (s : Session) (c : Child) : Prop :=
  Executes s.sdb c.regs → ∀ m regs, M.step (underway w s.sdb c.mem) c.regs = .ran m regs →
    regs.rip-1 ∉ s.sdb.addrList ∧ (s.sdb.preAddr ≠ 0 → Mapped m s.sdb.preAddr)

theorem underway_mapped (ready : Ready w M s c) (pending : s.sdb.preAddr ≠ 0) :
    Mapped (underway w s.sdb c.mem) s.sdb.preAddr := by
  have mapped := pending_mapped ready.fresh ready.overlaid ready.inside pending
  rw [← lifted_underway ready.fresh,lifted,if_pos pending]
  exact (overwrite_mapped c.mem _ _ _ mapped).mpr mapped

theorem restored_data (inside : s.sdb.preAddr ≠ 0 → s.sdb.text s.sdb.preAddr) (m : Memory) (x : Word)
    (outside : ¬ s.sdb.text x) : restored s.sdb.preAddr m x = m x := by
  unfold restored
  split
  next pending =>
    rw [Function.update_of_ne]
    rintro rfl
    exact outside (inside pending)
  next clear => rfl

theorem trap_reported (ready : Ready w M s c) (stays : ¬ Executes s.sdb c.regs) :
    SiReturns w s (Halts s c.mem c.regs True) := by
  refine ⟨2,?_⟩
  intro fuel enough
  obtain ⟨fuel,rfl⟩ : ∃ k, fuel = k+2 := ⟨fuel-2,by omega⟩
  have live := not_executes_live stays
  have listed := liveKeys_listed live
  have back : c.regs.rip+1-1 = c.regs.rip := BitVec.add_sub_cancel _ _
  have trap : underway w s.sdb c.mem (M.ip c.regs) = some 0xcc := by
    rw [ready.runs.rip,underway_text ready.overlaid _ (ready.text _ listed),live]
    rfl
  have told := steps_underway ready (fuel+1)
  rw [single_trapped trap] at told
  have mapped := underway_mapped ready
  obtain ⟨value,found⟩ := Option.isSome_iff_exists.mp (Std.ExtTreeMap.mem_iff_isSome_getElem?.mp listed)
  obtain ⟨rows,returned⟩ := checkProcess_hit
    (s := {s with process := .resumed s.sdb.pid .singlestep {c with mem := underway w s.sdb c.mem}}) fuel value
    ready.opens rfl told mapped (by simpa only [Child.withRip,back] using found)
  rw [← si_underway ready] at returned
  refine ⟨_,returned,⟨_,rfl,?_,?_⟩,_,List.append_assoc _ _ _,?_⟩
  · simp only [Child.withRip,Child.restored,back]
  · intro x outside
    exact (restored_data ready.inside _ x outside).trans (underway_data ready.inside x outside)
  · simp

theorem executed_trapped (ready : Ready w M s c) (executes : Executes s.sdb c.regs) (fuel : Nat) {m : Memory}
    {regs : Registers} (ran : M.step (underway w s.sdb c.mem) c.regs = .ran m regs) (before : regs.rip-1 ∉ s.sdb.addrList)
    (mapped : s.sdb.preAddr ≠ 0 → Mapped m s.sdb.preAddr) :
    (si w (fuel+2)).run s = if regs.rip ∈ s.sdb.addrList then (si w fuel).run (s.caught ⟨m,regs⟩)
      else .done () (s.caught ⟨m,regs⟩) := by
  have told := steps_underway ready (fuel+1)
  rw [single_clean (executes_clean ready executes),ran] at told
  have unlisted : s.sdb.addrList[regs.rip-1]? = none := (unlisted_iff _ _).mpr before
  have settled := checkProcess_trapped
    (s := {s with process := .resumed s.sdb.pid .singlestep {c with mem := underway w s.sdb c.mem}})
    fuel rfl told mapped
  simp only [unlisted] at settled
  exact (si_underway ready _).trans settled

theorem landing_trap (ready : Ready w M s c) {m : Memory} {regs : Registers}
    (kept : ∀ x, s.sdb.text x → m x = underway w s.sdb c.mem x) (listed : regs.rip ∈ s.sdb.addrList) :
    restored s.sdb.preAddr m regs.rip = some 0xcc := by
  by_cases here : s.sdb.preAddr ≠ 0 ∧ regs.rip = s.sdb.preAddr
  · rw [restored,if_pos here.1,here.2,Function.update_self]
  · have live : s.sdb.liveKeys regs.rip = true :=
      (liveKeys_iff _ _).mpr ⟨listed,fun pending same => here ⟨pending,same⟩⟩
    have inside := ready.text _ listed
    have byte : m regs.rip = some 0xcc := by
      rw [kept _ inside,underway_text ready.overlaid _ inside,live]
      rfl
    unfold restored
    split
    next pending => rw [Function.update_of_ne fun same => here ⟨pending,same⟩,byte]
    next clear => exact byte

theorem nested_reported (ready : Ready w M s c) (fuel : Nat) {m : Memory} {regs : Registers}
    (trap : restored s.sdb.preAddr m regs.rip = some 0xcc) (listed : regs.rip ∈ s.sdb.addrList) :
    ∃ t, (si w (fuel+2)).run (s.caught ⟨m,regs⟩) = .done () t ∧ Halts s m regs True t := by
  have back : regs.rip+1-1 = regs.rip := BitVec.add_sub_cancel _ _
  have told : w.resume (fuel+1) (s.clock+1) .singlestep ⟨restored s.sdb.preAddr m,regs⟩ =
      some (.stopped SIGTRAP ((⟨restored s.sdb.preAddr m,regs⟩ : Child).withRip (regs.rip+1))) := by
    have under : restored s.sdb.preAddr m (M.ip regs) = some 0xcc := by rw [ready.runs.rip,trap]
    rw [ready.runs.resume,cpuReport,single_trapped under]
    rfl
  obtain ⟨value,found⟩ := Option.isSome_iff_exists.mp (Std.ExtTreeMap.mem_iff_isSome_getElem?.mp listed)
  obtain ⟨t,rows,returned,process,out,_⟩ := si_hit (s := s.caught ⟨m,regs⟩) fuel value ready.opens rfl ready.running
    rfl told (by change s.sdb.addrList[regs.rip+1-1]? = _; rw [back,found])
  refine ⟨t,returned,⟨_,process,?_,?_⟩,_,out.trans (List.append_assoc _ _ _),by simp⟩
  · simp only [Child.withRip,back]
  · exact restored_data ready.inside m

theorem step_reported (ready : Ready w M s c) (executes : Executes s.sdb c.regs) {m : Memory} {regs : Registers}
    (ran : M.step (underway w s.sdb c.mem) c.regs = .ran m regs) (before : regs.rip-1 ∉ s.sdb.addrList)
    (mapped : s.sdb.preAddr ≠ 0 → Mapped m s.sdb.preAddr) (kept : ∀ x, s.sdb.text x → m x = underway w s.sdb c.mem x) :
    SiReturns w s (Halts s m regs (regs.rip ∈ s.sdb.addrList)) := by
  refine ⟨4,?_⟩
  intro fuel enough
  obtain ⟨fuel,rfl⟩ : ∃ k, fuel = k+2+2 := ⟨fuel-4,by omega⟩
  rw [executed_trapped ready executes (fuel+2) ran before mapped]
  by_cases listed : regs.rip ∈ s.sdb.addrList
  · rw [if_pos listed]
    obtain ⟨t,returned,halts⟩ := nested_reported ready fuel (landing_trap ready kept listed) listed
    refine ⟨t,returned,halts.child,?_⟩
    simpa [listed] using halts.reported
  · rw [if_neg listed]
    refine ⟨_,rfl,⟨_,rfl,rfl,restored_data ready.inside m⟩,_,rfl,?_⟩
    simp [listed,resetRows_plain]

theorem step_exits (ready : Ready w M s c) (executes : Executes s.sdb c.regs) {code : Nat}
    (done : M.step (underway w s.sdb c.mem) c.regs = .exited code) :
    SiReturns w s fun t => t.process = .ended s.sdb.pid (.exited code) := by
  refine ⟨2,?_⟩
  intro fuel enough
  obtain ⟨fuel,rfl⟩ : ∃ k, fuel = k+2 := ⟨fuel-2,by omega⟩
  have told := steps_underway ready (fuel+1)
  rw [single_clean (executes_clean ready executes),done] at told
  obtain ⟨text,returned⟩ := checkProcess_exits
    (s := {s with process := .resumed s.sdb.pid .singlestep {c with mem := underway w s.sdb c.mem}}) fuel code rfl told
  exact ⟨_,by rw [si_underway ready,returned],rfl⟩

theorem executed_lands (ready : Ready w M s c) (executes : Executes s.sdb c.regs) {m : Memory} {regs : Registers}
    (ran : M.step (underway w s.sdb c.mem) c.regs = .ran m regs) {hit : Prop} {data : Memory}
    (returns : SiReturns w s (Halts s data regs hit)) :
    regs.rip-1 ∉ s.sdb.addrList ∧ (s.sdb.preAddr ≠ 0 → Mapped m s.sdb.preAddr) := by
  obtain ⟨enough,returns⟩ := returns
  obtain ⟨t,returned,halts⟩ := returns (enough+1) (Nat.le_succ _)
  rw [si_underway ready] at returned
  obtain ⟨report,heard,told,settles,_⟩ := checkProcess_settles w enough
    {s with process := .resumed s.sdb.pid .singlestep {c with mem := underway w s.sdb c.mem}} t _ _ rfl
    ready.running returned
  rw [steps_underway ready,single_clean (executes_clean ready executes),ran,Option.some.injEq] at told
  subst told
  obtain ⟨listed,c',stopped,moved⟩ | landed := settles_step settles
  · -- A false hit has taken rip back, so it is not the rip of the instruction.
    obtain ⟨c'',stopped',same,_⟩ := halts.child
    rw [stopped'] at stopped
    cases stopped
    rw [same] at moved
    exact absurd moved (by bv_omega)
  · exact landed

theorem ready_one_step_iff (ready : Ready w M s c) : OneStep w M s c ↔ StepLands w M s c := by
  constructor
  · intro one executes m regs ran
    have same := ready.plain.same executes
    rw [ran] at same
    cases own : M.step (ownByte w s.sdb c.mem) c.regs with
    | exited code =>
      rw [own] at same
      exact same.elim
    | ran data regs' =>
      rw [own] at same
      obtain ⟨rfl,_⟩ := same
      exact executed_lands ready executes ran (one.runs executes data regs own)
  · intro lands
    refine ⟨trap_reported ready,?_,?_⟩
    · intro executes data regs own
      have same := ready.plain.same executes
      rw [own] at same
      cases ran : M.step (underway w s.sdb c.mem) c.regs with
      | exited code =>
        rw [ran] at same
        exact same.elim
      | ran m regs' =>
        rw [ran] at same
        obtain ⟨rfl,outside,inside⟩ := same
        obtain ⟨before,mapped⟩ := lands executes m _ ran
        obtain ⟨enough,returns⟩ := step_reported ready executes ran before mapped fun x text => (inside x text).2
        refine ⟨enough,fun fuel more => ?_⟩
        obtain ⟨t,returned,⟨c',stopped,regs,data'⟩,reported⟩ := returns fuel more
        exact ⟨t,returned,⟨c',stopped,regs,fun x apart => (data' x apart).trans (outside x apart)⟩,reported⟩
    · intro executes code own
      have same := ready.plain.same executes
      rw [own] at same
      cases done : M.step (underway w s.sdb c.mem) c.regs with
      | exited code' =>
        rw [done] at same
        cases same
        exact step_exits ready executes done
      | ran m regs =>
        rw [done] at same
        exact same.elim

end Step

/-- From a prompt whose traps are in place, si is one step of the program exactly if
the instruction does not end one past a listed address, and the word of the pending
hit is still mapped after it. -/
theorem one_step_iff (w : World) (M : Machine Registers) (s : Session) (c : Child) (runs : w.RunsOn M)
    (opens : w.csOpen = true) (reached : Reachable (debugger w) s) (live : s.process = .stopped s.sdb.pid c)
    (overlaid : Overlaid w s.sdb s.process) (plain : PlainStep w M s.sdb c) (fresh : UpToDate w s.sdb c) :
    OneStep w M s c ↔ StepLands w M s c := by
  obtain ⟨text,inside⟩ := reachable_text reached
  have running := stopped_running (reachable_phase reached) live
  exact ready_one_step_iff ⟨runs,opens,live,running,overlaid c live,text,inside,plain,fresh⟩

/-! The program of `stcWorld` again, its first instruction one byte long. -/

def beforeStc (a : Word) : Child := ⟨Function.update (samplePage [0xf9]) a (some 0xcc),sampleRegs 0x1000⟩

theorem stc_step (m : Memory) : stcCpu.step m (sampleRegs 0x1000) =
    .ran m {sampleRegs 0x1000 with eflags := (sampleRegs 0x1000).eflags ||| 1,rip := (sampleRegs 0x1000).rip+1} := rfl

theorem stc_plain (d : SDB) (a : Word) (inside : d.inText 0x1000 = true) (pending : d.preAddr ≠ 0 → d.text d.preAddr) :
    PlainStep stcWorld stcCpu d (beforeStc a) := by
  refine ⟨?_,fun _ => ?_⟩
  · change ownByte stcWorld d (beforeStc a).mem 0x1000 ≠ some 0xcc
    rw [ownByte_text inside]
    change samplePage [0xf9] 0x1000 ≠ some 0xcc
    decide
  · change SameStep _ _ _ (stcCpu.step _ (sampleRegs 0x1000)) (stcCpu.step _ (sampleRegs 0x1000))
    rw [stc_step,stc_step]
    refine ⟨rfl,fun x outside => ?_,fun _ _ => ⟨rfl,rfl⟩⟩
    exact (underway_data pending x outside).trans (ownByte_data outside).symm

def hitStc : List Command := [.load "a.out",.start,.break 0x1000,.cont]

theorem hitStc_stopped : (sampleSession stcWorld hitStc).process = .stopped 7 (beforeStc 0x1000) := by
  have memory : (overwrite (samplePage [0xf9]) 0x1000 fun i => some (byteAt (trapWord 0x90909090909090f9) i)) =
      (beforeStc 0x1000).mem := overwrite_trap _ _ _ rfl
  rw [show beforeStc 0x1000 = ⟨(beforeStc 0x1000).mem,sampleRegs 0x1000⟩ from rfl,← memory]
  rfl

def aheadStc : List Command := [.load "a.out",.start,.break 0x1001]

theorem aheadStc_stopped : (sampleSession stcWorld aheadStc).process = .stopped 7 (beforeStc 0x1001) := by
  have memory : (overwrite (samplePage [0xf9]) 0x1001 fun i => some (byteAt (trapWord 0x9090909090909090) i)) =
      (beforeStc 0x1001).mem := overwrite_trap _ _ _ rfl
  rw [show beforeStc 0x1001 = ⟨(beforeStc 0x1001).mem,sampleRegs 0x1000⟩ from rfl,← memory]
  rfl

/-- stc, its hit reported, is executed and then taken for a hit again. -/
theorem step_taken_back : Reachable (debugger stcWorld) (sampleSession stcWorld hitStc) ∧
    stcWorld.RunsOn stcCpu ∧ stcWorld.csOpen = true ∧
    (sampleSession stcWorld hitStc).sdb.state = .running ∧
    (sampleSession stcWorld hitStc).process = .stopped (sampleSession stcWorld hitStc).sdb.pid (beforeStc 0x1000) ∧
    Overlaid stcWorld (sampleSession stcWorld hitStc).sdb (sampleSession stcWorld hitStc).process ∧
    PlainStep stcWorld stcCpu (sampleSession stcWorld hitStc).sdb (beforeStc 0x1000) ∧
    UpToDate stcWorld (sampleSession stcWorld hitStc).sdb (beforeStc 0x1000) ∧
    ¬ OneStep stcWorld stcCpu (sampleSession stcWorld hitStc) (beforeStc 0x1000) := by
  have overlaid : Overlaid stcWorld (sampleSession stcWorld hitStc).sdb (sampleSession stcWorld hitStc).process := by
    rw [hitStc_stopped]
    exact one_overlaid rfl rfl 7
  have text := reachable_text (sample_reachable stcWorld hitStc)
  have plain := stc_plain (sampleSession stcWorld hitStc).sdb 0x1000 rfl text.2
  have fresh : UpToDate stcWorld (sampleSession stcWorld hitStc).sdb (beforeStc 0x1000) := by
    intro _
    refine ⟨?_,by decide⟩
    intro i positive small _
    interval_cases i <;> decide
  refine ⟨sample_reachable _ _,cpuWorld_runs _ _ _,rfl,rfl,hitStc_stopped,overlaid,plain,fresh,?_⟩
  intro one
  have lands := (ready_one_step_iff ⟨cpuWorld_runs _ _ _,rfl,hitStc_stopped,rfl,overlaid _ hitStc_stopped,text.1,
    text.2,plain,fresh⟩).mp one
  refine (lands (fun _ => ⟨by decide,by decide⟩) _ _ rfl).1 ?_
  decide

theorem one_step_iff_ahead : OneStep stcWorld stcCpu (sampleSession stcWorld aheadStc) (beforeStc 0x1001) := by
  refine (one_step_iff stcWorld stcCpu _ (beforeStc 0x1001) (cpuWorld_runs _ _ _) rfl (sample_reachable _ _)
    aheadStc_stopped ?_ (stc_plain _ 0x1001 rfl (absurd rfl)) (fun pending => absurd rfl pending)).mpr ?_
  · rw [aheadStc_stopped]
    exact one_overlaid rfl rfl 7
  · intro _ m regs ran
    cases ran
    exact ⟨by decide,fun pending => absurd rfl pending⟩

end Unixprog.Sdb
