import Unixprog.Sdb.Cpu
import Unixprog.Sdb.Bookkeeping

/-! The debugged child against the bare program. At every prompt the child is the
bare program after some number of instructions, with traps in its text. -/
namespace Unixprog.Sdb
open Words Runs Traps

/-- The child `p` is the program started as `c₀` after `n` instructions. -/
structure Mirrors (M : Machine Registers) (d : SDB) (c₀ : Child) (p : Process) (n : Nat) : Prop where
  saved : ∀ (a v : Word), d.addrList[a]? = some v →
    d.text a ∧ Boundary M c₀.mem c₀.regs a ∧ c₀.mem a = some (byteAt v 0)
  pending : d.preAddr ≠ 0 → d.text d.preAddr ∧ c₀.mem d.preAddr = some (byteAt d.preVal 0)
  stopped : ∀ c, p = .stopped d.pid c →
    ∃ m, M.flow c₀.mem c₀.regs n = .ran m c.regs ∧ c.mem = armed 0xcc d.keys m
  ended : ∀ pid code, p = .ended pid (.exited code) → ∃ k, M.flow c₀.mem c₀.regs k = .exited code

/-! The condition on a step. -/

/-- A resumption with a pending hit writes back a word that is up to date, and puts
the trap back only where it is still listed. -/
def LiftFits (w : World) (clock : Nat) (d : SDB) (c : Child) (request : Request) : Prop :=
  d.preAddr ≠ 0 → Agrees everywhere c.mem d.preAddr d.preVal ∧
    ∀ time signal after, w.resume time clock request {c with mem := lifted d c.mem} = some (.stopped signal after) →
      d.preAddr ∈ d.addrList

def NoFalseHit (M : Machine Registers) (d : SDB) (c : Child) : Prop :=
  ∀ m regs, M.single 0xcc (lifted d c.mem) c.regs = .ran m regs → regs.rip-1 ∉ d.addrList

def CommandHonest (w : World) (M : Machine Registers) (clock : Nat) (d : SDB) (c₀ c : Child) : Command → Prop
  | .break addr => Boundary M c₀.mem c₀.regs addr
  | .delete id => ∀ addr value, 0 ≤ id → d.addrList.toList[id.toNat]? = some (addr,value) →
      Agrees everywhere c.mem addr value
  | .set _ _ => False
  | .si => LiftFits w clock d c .singlestep ∧ NoFalseHit M d c
  | .cont => LiftFits w clock d c .cont
  | .run => LiftFits w clock d c .cont
  | _ => True

/-- No byte but those of the listed addresses is changed by the step, set is not
used, and breakpoints lie at instruction boundaries. -/
def StepHonest (w : World) (M : Machine Registers) (s : Session) (command : Command) : Prop :=
  (∀ c c₀, s.process = .stopped s.sdb.pid c → w.exec s.sdb.programName = some c₀ →
    CommandHonest w M s.clock s.sdb c₀ c command) ∧
  (command = .start → s.sdb.state = .loaded → ∀ a ∈ s.sdb.addrList, ∀ x, offset a x < 8 →
    x ∈ s.sdb.addrList ∨ w.image s.sdb.programName x = some 0xff)

/-- The program executes no trap of its own and leaves .text alone. -/
def DebuggeeFits (w : World) (M : Machine Registers) (d : SDB) : Prop :=
  ∀ c₀, w.exec d.programName = some c₀ → Oblivious M 0xcc d.text c₀.mem c₀.regs

theorem CommandHonest.lift {w : World} {M : Machine Registers} {clock : Nat} {d : SDB} {c₀ c : Child}
    {command : Command} {request : Request} (honest : CommandHonest w M clock d c₀ c command)
    (lets : command.request = some request) :
    LiftFits w clock d c request ∧ (request = .singlestep → NoFalseHit M d c) := by
  cases command with
  | si => cases lets; exact ⟨honest.1,fun _ => honest.2⟩
  | cont => cases lets; exact ⟨honest,fun single => by cases single⟩
  | run => cases lets; exact ⟨honest,fun single => by cases single⟩
  | _ => cases lets

/-! One resumption. -/

section Resume
variable {w : World} {M : Machine Registers} {d e : SDB} {c₀ : Child} {p : Process} {heard : List Report}

theorem settles_trapped {k : Nat} {m : Memory} {regs : Registers}
    (settles : Settles w d (reportOf (.trapped (armed 0xcc d.liveKeys m) regs)) e p heard)
    (saved : ∀ (a v : Word), d.addrList[a]? = some v →
      d.text a ∧ Boundary M c₀.mem c₀.regs a ∧ c₀.mem a = some (byteAt v 0))
    (due : d.preAddr ≠ 0 → d.preAddr ∈ d.addrList) (here : M.flow c₀.mem c₀.regs k = .ran m regs)
    (listed : regs.rip ∈ d.addrList) : Mirrors M e c₀ p k := by
  obtain ⟨value,found,_,rfl,rfl⟩ := settles_trap settles listed
  obtain ⟨inside,boundary,byte⟩ := saved _ _ found
  refine ⟨saved,?_,?_,?_⟩
  · intro _
    refine ⟨inside,byte.trans ?_⟩
    simp [SDB.afterHit,byteAt_savedWord]
  · intro c stopped
    cases stopped
    exact ⟨m,here,restored_armed d m due⟩
  · intro pid code ended
    cases ended

theorem liveKeys_clear (d : SDB) (clear : d.preAddr = 0) : d.liveKeys = d.keys := by
  funext x
  simp [SDB.liveKeys,SDB.keys,clear]

theorem settles_ran (runs : w.RunsOn M) {k : Nat} {m : Memory} {regs : Registers}
    (settles : Settles w d (reportOf (.ran (armed 0xcc d.liveKeys m) regs)) e p heard)
    (saved : ∀ (a v : Word), d.addrList[a]? = some v →
      d.text a ∧ Boundary M c₀.mem c₀.regs a ∧ c₀.mem a = some (byteAt v 0))
    (due : d.preAddr ≠ 0 → d.preAddr ∈ d.addrList) (here : M.flow c₀.mem c₀.regs k = .ran m regs)
    (truly : regs.rip-1 ∉ d.addrList) : Mirrors M e c₀ p k := by
  generalize told : reportOf (.ran (armed 0xcc d.liveKeys m) regs) = report at settles
  cases settles with
  | exited d code => cases told
  | signaled d signal => cases told
  | other d signal c differs =>
    cases told
    exact absurd rfl differs
  | hit d c value mapped found =>
    cases told
    refine absurd ?_ truly
    rw [Std.ExtTreeMap.mem_iff_isSome_getElem?,found]
    rfl
  | pass d c mapped before _ =>
    cases told
    refine ⟨saved,fun pending => absurd rfl pending,?_,?_⟩
    · intro c stopped
      cases stopped
      exact ⟨m,here,restored_armed d m due⟩
    · intro pid code ended
      cases ended
  | nested d e c mapped before there fuel clock report p heard resumed rest =>
    cases told
    -- The trap under rip is in place again, so the nested step only executes it.
    have memory : (Child.restored ⟨armed 0xcc d.liveKeys m,regs⟩ d.preAddr).mem = armed 0xcc d.keys m :=
      restored_armed d m due
    have at' : armed 0xcc d.keys m (M.ip regs) = some 0xcc := by
      rw [runs.rip]
      simp only [armed,if_pos ((keys_iff d regs.rip).mpr there)]
    rw [runs.resume,cpuReport,memory,Option.some.injEq] at resumed
    simp only [Child.restored] at resumed
    rw [single_trapped at'] at resumed
    subst resumed
    have keys : d.keys = SDB.liveKeys {d with preAddr := 0} := (liveKeys_clear {d with preAddr := 0} rfl).symm
    rw [keys] at rest
    exact settles_trapped (d := {d with preAddr := 0}) rest saved (fun pending => absurd rfl pending) here there

theorem settles_exited {code : Nat} (settles : Settles w d (reportOf (.exited code)) e p heard)
    (saved : ∀ (a v : Word), d.addrList[a]? = some v →
      d.text a ∧ Boundary M c₀.mem c₀.regs a ∧ c₀.mem a = some (byteAt v 0)) {k : Nat} (n : Nat)
    (done : M.flow c₀.mem c₀.regs k = .exited code) : Mirrors M e c₀ p n := by
  obtain ⟨rfl,rfl⟩ := settles_exit settles
  refine ⟨saved,fun pending => absurd rfl pending,?_,?_⟩
  · intro c stopped
    cases stopped
  · intro pid code ended
    cases ended
    exact ⟨k,done⟩

theorem resume_mirrors (runs : w.RunsOn M) (oblivious : Oblivious M 0xcc d.text c₀.mem c₀.regs) {n : Nat}
    {c : Child} {clock time : Nat} {request : Request} {report : Report}
    (mirrors : Mirrors M d c₀ (.stopped d.pid c) n) (lift : LiftFits w clock d c request)
    (truly : request = .singlestep → NoFalseHit M d c)
    (told : w.resume time clock request {c with mem := lifted d c.mem} = some report)
    (settles : Settles w d report e p heard) : ∃ k, n ≤ k ∧ Mirrors M e c₀ p k := by
  obtain ⟨m,here,memory⟩ := mirrors.stopped c rfl
  have under := flow_text oblivious n here
  have lifting : lifted d c.mem = armed 0xcc d.liveKeys m := by
    refine lifted_armed d c m memory ?_
    intro pending
    obtain ⟨inside,low⟩ := mirrors.pending pending
    exact ⟨(lift pending).1,(under _ inside).trans low⟩
  have placed (a : Word) (live : d.liveKeys a = true) : d.text a ∧ Boundary M c₀.mem c₀.regs a := by
    have listed := liveKeys_listed live
    rw [Std.ExtTreeMap.mem_iff_isSome_getElem?] at listed
    obtain ⟨v,found⟩ := Option.isSome_iff_exists.mp listed
    exact ⟨(mirrors.saved a v found).1,(mirrors.saved a v found).2.1⟩
  have due (signal : Nat) (after : Child) (stop : report = .stopped signal after) (pending : d.preAddr ≠ 0) :
      d.preAddr ∈ d.addrList := (lift pending).2 time signal after (by rw [told,stop])
  rw [runs.resume,lifting] at told
  cases request with
  | singlestep =>
    simp only [cpuReport,Option.some.injEq] at told
    cases key : d.liveKeys (M.ip c.regs) with
    | true =>
      have trap : armed 0xcc d.liveKeys m (M.ip c.regs) = some 0xcc := by simp only [armed,key,if_true]
      rw [single_trapped trap] at told
      subst told
      rw [runs.rip] at key
      exact ⟨n,le_rfl,settles_trapped settles mirrors.saved (due _ _ rfl) here (liveKeys_listed key)⟩
    | false =>
      have one := single_armed oblivious placed n here key
      cases after : M.flow c₀.mem c₀.regs (n+1) with
      | ran m' regs' =>
        simp only [after] at one
        rw [one] at told
        subst told
        have away := truly rfl (armed 0xcc d.liveKeys m') regs' (by rw [lifting,one])
        exact ⟨n+1,Nat.le_succ n,settles_ran runs settles mirrors.saved (due _ _ rfl) after away⟩
      | exited code =>
        simp only [after] at one
        rw [one] at told
        subst told
        exact ⟨n,le_rfl,settles_exited settles mirrors.saved n after⟩
  | cont =>
    simp only [cpuReport,Option.map_eq_some_iff] at told
    obtain ⟨event,done,rfl⟩ := told
    obtain ⟨k,m',regs',later,there,key,rfl⟩ | ⟨k,code,there,rfl⟩ := go_armed oblivious placed time n here done
    · rw [runs.rip] at key
      exact ⟨k,later,settles_trapped settles mirrors.saved (due _ _ rfl) there (liveKeys_listed key)⟩
    · exact ⟨n,le_rfl,settles_exited settles mirrors.saved n there⟩

end Resume

/-! One step. -/

theorem armed_overlay (d : SDB) (m : Memory) : armed 0xcc d.keys m = overlay m d.addrList := by
  funext x
  simp [armed,SDB.keys,overlay]

theorem keys_insert (d : SDB) (a v : Word) (m : Memory) :
    armed 0xcc (d.insert a v).keys m = Function.update (armed 0xcc d.keys m) a (some 0xcc) := by
  rw [armed_overlay,armed_overlay]
  exact overlay_insert m d.addrList a v

theorem keys_erase (d : SDB) (a : Word) (m : Memory) :
    armed 0xcc (d.erase a).keys m = Function.update (armed 0xcc d.keys m) a (m a) := by
  rw [armed_overlay,armed_overlay]
  exact overlay_erase m d.addrList a

theorem effect_mirrors (w : World) (M : Machine Registers) (runs : w.RunsOn M) (clock n : Nat) (d e : SDB)
    (c₀ c : Child) (command : Command) (p : Process) (heard : List Report)
    (oblivious : Oblivious M 0xcc d.text c₀.mem c₀.regs) (mirrors : Mirrors M d c₀ (.stopped d.pid c) n)
    (honest : CommandHonest w M clock d c₀ c command) (effect : Effect w clock d c command e p heard) :
    ∃ k, n ≤ k ∧ Mirrors M e c₀ p k := by
  obtain ⟨m,here,memory⟩ := mirrors.stopped c rfl
  have under := flow_text oblivious n here
  cases effect with
  | quiet => exact ⟨n,le_rfl,mirrors⟩
  | insert addr code inside fresh found =>
    refine ⟨n,le_rfl,?_,mirrors.pending,?_,?_⟩
    · intro a v listed
      rw [insert_lookup] at listed
      split at listed
      next same =>
        cases listed
        subst a
        refine ⟨inside,honest,?_⟩
        have byte := fetch_first _ _ _ found
        rw [memory] at byte
        simpa [armed,SDB.keys,fresh,under addr inside] using byte
      next other => exact mirrors.saved a v listed
    · intro after stopped
      cases stopped
      refine ⟨m,here,?_⟩
      rw [keys_insert,← memory]
    · intro pid code ended
      cases ended
  | erase id addr value valid found mapped =>
    have listed : d.addrList[addr]? = some value := by
      have member := List.mem_of_getElem? found
      rwa [Std.ExtTreeMap.mem_toList_iff_getElem?_eq_some] at member
    obtain ⟨inside,_,byte⟩ := mirrors.saved addr value listed
    refine ⟨n,le_rfl,?_,mirrors.pending,?_,?_⟩
    · intro a v kept
      rw [erase_lookup] at kept
      split at kept
      next same => cases kept
      next other => exact mirrors.saved a v kept
    · intro after stopped
      cases stopped
      refine ⟨m,here,?_⟩
      have agrees : Agrees everywhere c.mem addr value := honest addr value valid found
      funext x
      refine (overwrite_agrees everywhere c.mem addr value x agrees trivial).trans ?_
      rw [keys_erase,under addr inside,byte,memory]
    · intro pid code ended
      cases ended
  | setRip val => exact honest.elim
  | setOther regName val regs differs named => exact honest.elim
  | resume _ request lets mapped time report told e p heard settles =>
    obtain ⟨lift,truly⟩ := honest.lift lets
    exact resume_mirrors runs oblivious mirrors lift truly told settles

/-! Runs. -/

inductive Accompanied (w : World) (M : Machine Registers) (s : Session) (n : Nat) : Prop
  | unborn (process : s.process = .unborn) (empty : s.sdb.addrList = ∅)
  | started (loaded : s.sdb.state ≠ .notLoaded) (c₀ : Child) (image : w.exec s.sdb.programName = some c₀)
      (mirrors : Mirrors M s.sdb c₀ s.process n)

def Onwards (s : Session) (n : Nat) (t : Session) (k : Nat) : Prop :=
  s.tracee.isSome → t.tracee.isSome → n ≤ k

theorem started_mirrors (w : World) (M : Machine Registers) (s t : Session) (pid : ℕ+) (c : Child) (m : Memory)
    (nulls : w.NullUnmapped) (clear : s.sdb.preAddr = 0)
    (fits : ∀ a ∈ s.sdb.addrList, ∀ x, offset a x < 8 →
      x ∈ s.sdb.addrList ∨ w.image s.sdb.programName x = some 0xff)
    (saved : ∀ (a v : Word), s.sdb.addrList[a]? = some v →
      s.sdb.text a ∧ Boundary M c.mem c.regs a ∧ c.mem a = some (byteAt v 0))
    (started : Started w s t pid c m) : Mirrors M t.sdb c t.process 0 := by
  obtain ⟨memory,_⟩ := started_memory w s t pid c m nulls clear started
  rw [started.process,started.sdb]
  refine ⟨saved,fun pending => absurd clear pending,?_,?_⟩
  · intro after stopped
    cases stopped
    refine ⟨c.mem,rfl,?_⟩
    funext x
    simp only [memory,rearmed,mem_keys,armed,SDB.keys,SDB.afterStart]
    by_cases listed : x ∈ s.sdb.addrList
    · simp [listed]
    · simp only [listed,decide_false,if_false,Bool.false_eq_true]
      split
      next covered =>
        obtain ⟨a,key,near⟩ := covered
        have byte := (fits a key x near).resolve_left listed
        rw [World.image,started.image] at byte
        exact byte.symm
      next free => rfl
  · intro pid' code ended
    cases ended

theorem moved_accompanied (w : World) (M : Machine Registers) (runs : w.RunsOn M) (nulls : w.NullUnmapped)
    (s t : Session) (n : Nat) (command : Command) (phase : Phase s) (with' : Accompanied w M s n)
    (debuggee : s.sdb.state ≠ .notLoaded → DebuggeeFits w M s.sdb) (honest : StepHonest w M s command)
    (moved : Moved w s command t) : ∃ k, Accompanied w M t k ∧ Onwards s n t k := by
  cases moved with
  | same command unchanged =>
    refine ⟨n,?_,fun _ _ => le_rfl⟩
    cases with' with
    | unborn process empty => exact .unborn (by rw [unchanged.process,process]) (by rw [unchanged.sdb,empty])
    | started loaded c₀ image mirrors =>
      refine .started (by rw [unchanged.sdb]; exact loaded) c₀ (by rw [unchanged.sdb]; exact image) ?_
      rw [unchanged.sdb,unchanged.process]
      exact mirrors
  | loads fileName loads =>
    refine ⟨n,?_,fun _ _ => le_rfl⟩
    cases with' with
    | unborn process empty => exact .unborn (by rw [loads.process,process]) (by rw [loads.addrList,empty])
    | started loaded => exact absurd loads.idle loaded
  | starts pid c m started =>
    cases phase with
    | idle state pid' preAddr preVal childless =>
      refine ⟨0,?_,fun alive => by rw [childless] at alive; cases alive⟩
      have name : t.sdb.programName = s.sdb.programName := by rw [started.sdb]; rfl
      refine .started (by rw [started.sdb]; simp [SDB.afterStart]) c (by rw [name]; exact started.image) ?_
      refine started_mirrors w M s t pid c m nulls preAddr (honest.2 rfl started.loaded) ?_ started
      cases with' with
      | unborn process empty =>
        intro a v listed
        simp [empty] at listed
      | started loaded c₀ image mirrors =>
        have same : c₀ = c := by
          have again := started.image
          rw [image] at again
          exact Option.some.inj again
        subst c₀
        exact mirrors.saved
    | live c' state => exact absurd started.loaded (by simp [state])
    | dead signal state => exact absurd started.loaded (by simp [state])
  | affects command c running live affects =>
    cases with' with
    | unborn process empty =>
      rw [process] at live
      cases live
    | started loaded c₀ image mirrors =>
      obtain ⟨heard,effect,_⟩ := affects
      rw [live] at mirrors
      obtain ⟨k,later,after⟩ := effect_mirrors w M runs s.clock n s.sdb t.sdb c₀ c command t.process heard
        (debuggee loaded c₀ image) mirrors (honest.1 c c₀ live image) effect
      exact ⟨k,.started (effect.loaded running) c₀ (by rw [effect.frame.2]; exact image) after,fun _ _ => later⟩

/-- At this prompt the debugging is transparent: a stopped child has the registers and
the data of the bare program after `n` instructions, an exit code is the bare one. -/
structure Faithful (w : World) (M : Machine Registers) (s : Session) (n : Nat) : Prop where
  stopped : ∀ c, s.tracee = some c → ∃ c₀ m, w.exec s.sdb.programName = some c₀ ∧
    M.flow c₀.mem c₀.regs n = .ran m c.regs ∧ ∀ x, ¬ s.sdb.text x → c.mem x = m x
  ended : ∀ pid code, s.process = .ended pid (.exited code) →
    ∃ c₀ k, w.exec s.sdb.programName = some c₀ ∧ M.flow c₀.mem c₀.regs k = .exited code

theorem Accompanied.faithful {w : World} {M : Machine Registers} {s : Session} {n : Nat}
    (with' : Accompanied w M s n) : Faithful w M s n := by
  cases with' with
  | unborn process empty =>
    refine ⟨?_,?_⟩
    · intro c stopped
      rw [tracee_some,process] at stopped
      cases stopped
    · intro pid code ended
      rw [process] at ended
      cases ended
  | started loaded c₀ image mirrors =>
    refine ⟨?_,?_⟩
    · intro c stopped
      obtain ⟨m,here,memory⟩ := mirrors.stopped c ((tracee_some s c).mp stopped)
      refine ⟨c₀,m,image,here,?_⟩
      intro x outside
      have unlisted : x ∉ s.sdb.addrList := by
        intro listed
        rw [Std.ExtTreeMap.mem_iff_isSome_getElem?] at listed
        obtain ⟨v,found⟩ := Option.isSome_iff_exists.mp listed
        exact outside (mirrors.saved x v found).1
      rw [memory]
      simp [armed,SDB.keys,unlisted]
    · intro pid code ended
      obtain ⟨k,done⟩ := mirrors.ended pid code ended
      exact ⟨c₀,k,image,done⟩

/-- In a run of honest steps one count of instructions accompanies the prompts. -/
theorem honest_run_transparent (w : World) (M : Machine Registers) (runs : w.RunsOn M) (nulls : w.NullUnmapped)
    (length : Nat) (states : Nat → Session) (labels : Nat → Nat × Command)
    (run : Run (debugger w) (Within w (StepHonest w M)) length states labels)
    (debuggee : ∀ k ≤ length, (states k).sdb.state ≠ .notLoaded → DebuggeeFits w M (states k).sdb) :
    ∃ n : Nat → Nat, (∀ k ≤ length, Faithful w M (states k) (n k)) ∧
      ∀ k < length, (states k).tracee.isSome → (states (k+1)).tracee.isSome → n k ≤ n (k+1) := by
  have strong : Run (debugger w) (fun s label => Within w (StepHonest w M) s label ∧
      (s.sdb.state ≠ .notLoaded → DebuggeeFits w M s.sdb)) length states labels :=
    ⟨run.first,run.moved,fun k bound => ⟨run.meets k bound,debuggee k (Nat.le_of_lt bound)⟩⟩
  have base (s : Session) (first : (debugger w).initial s) : ∃ n, Phase s ∧ Accompanied w M s n := by
    obtain ⟨elf,sect,name,rfl⟩ := first
    exact ⟨0,created_phase elf sect name,.unborn rfl rfl⟩
  have kept (s : Session) (label : Nat × Command) (t : Session) (n : Nat)
      (related : Phase s ∧ Accompanied w M s n)
      (ok : Within w (StepHonest w M) s label ∧ (s.sdb.state ≠ .notLoaded → DebuggeeFits w M s.sdb))
      (moved : (debugger w).step s label t) : ∃ k, (Phase t ∧ Accompanied w M t k) ∧ Onwards s n t k := by
    obtain ⟨phase,with'⟩ := related
    obtain ⟨meets,fits⟩ := ok
    obtain ⟨other,one⟩ | ⟨launches,u,begun,first,second⟩ := step_moved w label.1 label.2 s t phase moved
    · obtain ⟨k,after,later⟩ :=
        moved_accompanied w M runs nulls s t n label.2 phase with' fits (meets.1 other) one
      exact ⟨k,⟨moved_phase w s t label.2 phase one,after⟩,later⟩
    · -- A run of a loaded program: no child was stopped before it.
      obtain ⟨starting,continuing⟩ := meets.2 launches
      have phase' := moved_phase w s u .start phase first
      obtain ⟨k,after,_⟩ := moved_accompanied w M runs nulls s u n .start phase with' fits starting first
      obtain ⟨other,_⟩ | ⟨_,pid,c,m,_,_,sdb,_⟩ := start_done w s u begun
      · exact absurd launches.2 other
      have fits' : u.sdb.state ≠ .notLoaded → DebuggeeFits w M u.sdb := by
        intro _
        rw [sdb]
        exact fits (by simp [launches.2])
      obtain ⟨k',after',_⟩ :=
        moved_accompanied w M runs nulls u t k .cont phase' after fits' (continuing u begun) second
      refine ⟨k',⟨moved_phase w u t .cont phase' second,after'⟩,?_⟩
      intro alive
      cases phase with
      | idle state pid preAddr preVal childless =>
        rw [childless] at alive
        cases alive
      | live c state => exact absurd launches.2 (by simp [state])
      | dead signal state => exact absurd launches.2 (by simp [state])
  obtain ⟨n,related,onwards⟩ := strong.ghost (fun s n => Phase s ∧ Accompanied w M s n) Onwards base kept
  exact ⟨n,fun k bound => (related k bound).2.faithful,onwards⟩

/-! A program of two instructions: stc, which is one byte long, then the exit. -/

def stcCpu : Machine Registers := cpu
  (fun m regs => if regs.rip = 0x1000 then .ran m {regs with eflags := regs.eflags ||| 1,rip := regs.rip+1}
    else .exited 0) fun _ _ => 1

def stcWorld : World := cpuWorld [0xf9] stcCpu

theorem stc_flow (n : Nat) {m : Memory} {regs : Registers}
    (here : stcCpu.flow (samplePage [0xf9]) (sampleRegs 0x1000) n = .ran m regs) :
    n ≤ 1 ∧ m = samplePage [0xf9] ∧ regs.rip = 0x1000+BitVec.ofNat 64 n ∧ regs.eflags = BitVec.ofNat 64 n := by
  match n with
  | 0 =>
    cases here
    exact ⟨by omega,rfl,rfl,rfl⟩
  | 1 =>
    cases here
    exact ⟨le_rfl,rfl,rfl,rfl⟩
  | n+2 =>
    have done : stcCpu.flow (samplePage [0xf9]) (sampleRegs 0x1000) (2+n) = .exited 0 := flow_exited 2 rfl n
    rw [Nat.add_comm,done] at here
    cases here

theorem stc_debuggee (d : SDB) : DebuggeeFits stcWorld stcCpu d := by
  intro c₀ image
  cases image
  refine ⟨?_,?_⟩
  · intro n m regs here
    obtain ⟨small,rfl,rip,_⟩ := stc_flow n here
    change samplePage [0xf9] regs.rip ≠ _
    rw [rip]
    interval_cases n <;> decide
  · intro n m regs other here data _
    simp only [stcCpu,cpu]
    split
    next => exact ⟨rfl,data,fun x _ => ⟨rfl,rfl⟩⟩
    next => rfl

theorem stc_boundary (a : Word) : Boundary stcCpu (samplePage [0xf9]) (sampleRegs 0x1000) a := by
  intro n m regs i _ positive small
  simp only [stcCpu,cpu] at small
  omega

def stepOverHit : List Command := [.load "a.out",.start,.break 0x1000,.cont,.si]

/-- Stepping over a breakpoint on a one-byte instruction takes rip back after it ran. -/
theorem step_not_transparent : Reachable (debugger stcWorld) (sampleSession stcWorld stepOverHit) ∧
    stcWorld.RunsOn stcCpu ∧ stcWorld.NullUnmapped ∧ (∀ d, DebuggeeFits stcWorld stcCpu d) ∧
    (∀ a, Boundary stcCpu (samplePage [0xf9]) (sampleRegs 0x1000) a) ∧
    (sampleSession stcWorld stepOverHit).tracee.isSome ∧
    ∀ n, ¬ Faithful stcWorld stcCpu (sampleSession stcWorld stepOverHit) n := by
  refine ⟨sample_reachable _ _,cpuWorld_runs _ _ _,cpuWorld_nulls _ _,stc_debuggee,stc_boundary,rfl,?_⟩
  intro n faithful
  obtain ⟨c₀,m,image,here,_⟩ := faithful.stopped _ rfl
  cases image
  obtain ⟨small,_,rip,flags⟩ := stc_flow n here
  interval_cases n
  · revert flags
    decide
  · revert rip
    decide

def stepThrough : List Command := [.load "a.out",.start,.break 0x1001,.cont]

theorem honest_run_transparent_stepThrough : ∃ n : Nat → Nat,
    Faithful stcWorld stcCpu (sampleSession stcWorld stepThrough) (n 4) ∧ n 2 ≤ n 3 := by
  have moved : ∀ k < 4, (debugger stcWorld).step (sampleSession stcWorld (stepThrough.take k))
      (9,stepThrough.getD k .list) (sampleSession stcWorld (stepThrough.take (k+1))) := by
    intro k bound
    interval_cases k <;> rfl
  have meets : ∀ k < 4, Within stcWorld (StepHonest stcWorld stcCpu)
      (sampleSession stcWorld (stepThrough.take k)) (9,stepThrough.getD k .list) := by
    intro k bound
    refine ⟨fun _ => ⟨?_,?_⟩,fun launches => ?_⟩
    · intro c c₀ stopped image
      cases image
      interval_cases k
      · trivial
      · trivial
      · exact stc_boundary _
      · exact fun pending => absurd rfl pending
    · intro _ _ a listed
      interval_cases k
      · exact absurd listed Std.ExtTreeMap.not_mem_empty
      · exact absurd listed Std.ExtTreeMap.not_mem_empty
      · contradiction
      · contradiction
    · have run := launches.1
      interval_cases k <;> cases run
  obtain ⟨n,faithful,onwards⟩ := honest_run_transparent stcWorld stcCpu (cpuWorld_runs _ _ _) (cpuWorld_nulls _ _) 4
    (fun k => sampleSession stcWorld (stepThrough.take k)) (fun k => (9,stepThrough.getD k .list))
    ⟨⟨_,_,_,rfl⟩,moved,meets⟩ (fun k _ _ => stc_debuggee _)
  exact ⟨n,faithful 4 le_rfl,onwards 2 (by omega) rfl rfl⟩

end Unixprog.Sdb
