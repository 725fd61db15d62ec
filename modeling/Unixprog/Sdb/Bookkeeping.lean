import Unixprog.Sdb.Overlay

/-! The saved words: what pre_addr and pre_val hold about a pending hit, and what
addr_list holds under each trap. -/
namespace Unixprog.Sdb
open Words Runs

abbrev everywhere : Word → Prop := fun _ => True

/-- A pending hit is a listed address at which the child stands, and the word
cached for it is what memory should hold there without the trap. -/
structure Consistent (w : World) (d : SDB) (p : Process) : Prop where
  pending : d.preAddr ≠ 0 → d.preAddr ∈ d.addrList ∧
    w.image d.programName d.preAddr = some (byteAt d.preVal 0) ∧
    ∃ c, p = .stopped d.pid c ∧ c.regs.rip = d.preAddr ∧ Agrees everywhere c.mem d.preAddr d.preVal
  saved : ∀ (a v : Word), d.addrList[a]? = some v → w.image d.programName a = some (byteAt v 0)

/-! The condition on a step. -/

/-- With a hit pending, the only stop allowed besides SIGTRAP leaves rip and the
cached bytes in place, and the child is not ended by a signal. -/
def PendingSurvives (d : SDB) : Report → Prop
  | .ended (.exited _) => True
  | .ended (.signaled _) => d.preAddr = 0
  | .stopped signal c => d.preAddr ≠ 0 → signal ≠ SIGTRAP →
      c.regs.rip = d.preAddr ∧ Agrees everywhere c.mem d.preAddr d.preVal

def HitsReadable (d : SDB) (heard : List Report) : Prop :=
  ∀ c, .stopped SIGTRAP c ∈ heard → c.regs.rip-1 ∈ d.addrList → Mapped c.mem (c.regs.rip-1)

def ResumeKeeps (w : World) (clock : Nat) (d : SDB) (c : Child) (request : Request) : Prop :=
  ∀ time report e p heard, w.resume time clock request {c with mem := lifted d c.mem} = some report →
    Settles w d report e p heard → PendingSurvives d report ∧ HitsReadable d heard

/-- A new breakpoint takes a byte of the program, not a stale trap, and misses the
cached bytes; a deletion leaves the pending breakpoint and the cached bytes alone. -/
def CommandKeeps (w : World) (clock : Nat) (d : SDB) (c : Child) : Command → Prop
  | .break addr => d.inText addr = true → addr ∉ d.addrList →
      c.mem addr = w.image d.programName addr ∧
        (d.preAddr ≠ 0 → offset d.preAddr addr < 8 → c.mem addr = some 0xcc)
  | .delete id => ∀ addr value, 0 ≤ id → d.addrList.toList[id.toNat]? = some (addr,value) → d.preAddr ≠ 0 →
      addr ≠ d.preAddr ∧ ∀ x, x ≠ d.preAddr → offset d.preAddr x < 8 → offset addr x < 8 →
        c.mem x = some (byteAt value (offset addr x))
  | .si => ResumeKeeps w clock d c .singlestep
  | .cont => ResumeKeeps w clock d c .cont
  | .run => ResumeKeeps w clock d c .cont
  | _ => True

def StepKeeps (w : World) (s : Session) (command : Command) : Prop :=
  ∀ c, s.process = .stopped s.sdb.pid c → CommandKeeps w s.clock s.sdb c command

theorem CommandKeeps.resume {w : World} {clock : Nat} {d : SDB} {c : Child} {command : Command}
    {request : Request} (keeps : CommandKeeps w clock d c command) (lets : command.request = some request) :
    ResumeKeeps w clock d c request := by
  cases command with
  | si => cases lets; exact keeps
  | cont => cases lets; exact keeps
  | run => cases lets; exact keeps
  | _ => cases lets

/-! One step. -/

theorem agrees_of_same {m after : Memory} {a word : Word} (agrees : Agrees everywhere m a word)
    (same : ∀ x, x ≠ a → offset a x < 8 → after x = m x) : Agrees everywhere after a word := by
  intro i positive small _
  rw [same _ (add_ne a i positive (by omega)) (by rw [offset_add a i (by omega)]; exact small)]
  exact agrees i positive small trivial

theorem savedWord_agrees (m : Memory) (addr value : Word) (mapped : Mapped m addr) :
    Agrees everywhere m addr (savedWord m addr value) := by
  obtain ⟨word,read,bytes⟩ := fetch_mapped m addr mapped
  intro i positive small _
  rw [byteAt_savedWord _ _ _ _ small,if_neg (by omega),read]
  exact bytes i small

theorem restored_mapped {m : Memory} {p a : Word} (present : p ≠ 0 → Mapped m p) (mapped : Mapped m a) :
    Mapped (restored p m) a := by
  unfold restored
  split
  next pending => exact (update_mapped m p a 0xcc (present pending).first).mpr mapped
  next clear => exact mapped

theorem Settles.consistent {w : World} {d e : SDB} {report : Report} {p : Process} {heard : List Report}
    (settles : Settles w d report e p heard)
    (pending : d.preAddr ≠ 0 → d.preAddr ∈ d.addrList ∧
      w.image d.programName d.preAddr = some (byteAt d.preVal 0))
    (saved : ∀ (a v : Word), d.addrList[a]? = some v → w.image d.programName a = some (byteAt v 0))
    (survives : PendingSurvives d report) (readable : HitsReadable d heard) : Consistent w e p := by
  induction settles with
  | exited d code => exact ⟨fun some => absurd rfl some,saved⟩
  | signaled d signal => exact ⟨fun some => absurd survives some,saved⟩
  | other d signal c differs =>
    refine ⟨fun some => ?_,saved⟩
    obtain ⟨rip,agrees⟩ := survives some differs
    exact ⟨(pending some).1,(pending some).2,c,rfl,rip,agrees⟩
  | hit d c value mapped listed =>
    have key : c.regs.rip-1 ∈ d.addrList := by
      rw [Std.ExtTreeMap.mem_iff_isSome_getElem?,listed]
      rfl
    have there := restored_mapped mapped (readable c (by simp) key)
    refine ⟨fun _ => ⟨key,?_,_,rfl,rfl,savedWord_agrees _ _ _ there⟩,saved⟩
    exact (saved _ _ listed).trans (by simp [SDB.afterHit,byteAt_savedWord])
  | pass d c mapped before here => exact ⟨fun some => absurd rfl some,saved⟩
  | nested d e c mapped before here fuel clock report p heard resumed rest ih =>
    refine ih (fun some => absurd rfl some) saved ?_ ?_
    · cases report with
      | ended ending => cases ending <;> trivial
      | stopped signal after => exact fun some => absurd rfl some
    · intro after member
      exact readable after (List.mem_cons_of_mem _ member)

theorem setReg_keeps_rip (regs after : Registers) (val : Word) (regName : String) (differs : regName ≠ "rip")
    (named : setReg regs val regName = some after) : after.rip = regs.rip := by
  unfold setReg at named
  split at named <;> simp_all <;> subst named <;> rfl

theorem effect_consistent (w : World) (clock : Nat) (d e : SDB) (c : Child) (command : Command) (p : Process)
    (heard : List Report) (effect : Effect w clock d c command e p heard)
    (books : Consistent w d (.stopped d.pid c)) (keeps : CommandKeeps w clock d c command) :
    Consistent w e p := by
  have standing (pending : d.preAddr ≠ 0) :
      c.regs.rip = d.preAddr ∧ Agrees everywhere c.mem d.preAddr d.preVal := by
    obtain ⟨_,_,_,stopped,rip,agrees⟩ := books.pending pending
    cases stopped
    exact ⟨rip,agrees⟩
  cases effect with
  | quiet => exact books
  | insert addr code inside fresh found =>
    obtain ⟨byte,cached⟩ := keeps inside fresh
    refine ⟨fun pending => ?_,?_⟩
    · obtain ⟨listed,low,_⟩ := books.pending pending
      obtain ⟨rip,agrees⟩ := standing pending
      refine ⟨by simp [SDB.insert,listed],low,_,rfl,rip,agrees_of_same agrees ?_⟩
      intro x _ near
      by_cases here : x = addr
      · subst x
        exact (Function.update_self ..).trans (cached pending near).symm
      · exact Function.update_of_ne here ..
    · intro a v listed
      rw [insert_lookup] at listed
      split at listed
      next here =>
        cases listed
        subst a
        rw [← fetch_first _ _ _ found]
        exact byte.symm
      next other => exact books.saved a v listed
  | erase id addr value valid found mapped =>
    refine ⟨fun pending => ?_,?_⟩
    · obtain ⟨other,kept⟩ := keeps addr value valid found pending
      obtain ⟨listed,low,_⟩ := books.pending pending
      obtain ⟨rip,agrees⟩ := standing pending
      refine ⟨by simp [SDB.erase,other,listed],low,_,rfl,rip,agrees_of_same agrees ?_⟩
      intro x later near
      by_cases inside : offset addr x < 8
      · exact (if_pos inside).trans (kept x later near inside).symm
      · exact if_neg inside
    · intro a v kept
      rw [erase_lookup] at kept
      split at kept
      next same => cases kept
      next other => exact books.saved a v kept
  | setRip val => exact ⟨fun pending => absurd rfl pending,books.saved⟩
  | setOther regName val regs differs named =>
    refine ⟨fun pending => ?_,books.saved⟩
    obtain ⟨listed,low,_⟩ := books.pending pending
    obtain ⟨rip,agrees⟩ := standing pending
    exact ⟨listed,low,_,rfl,(setReg_keeps_rip _ _ _ _ differs named).trans rip,agrees⟩
  | resume _ request lets mapped time report told e p heard settles =>
    obtain ⟨survives,readable⟩ := keeps.resume lets time report e p heard told settles
    exact settles.consistent (fun pending => ⟨(books.pending pending).1,(books.pending pending).2.1⟩)
      books.saved survives readable

theorem moved_consistent (w : World) (s t : Session) (command : Command) (phase : Phase s)
    (books : Consistent w s.sdb s.process) (keeps : StepKeeps w s command) (moved : Moved w s command t) :
    Consistent w t.sdb t.process := by
  cases moved with
  | same command unchanged =>
    rw [unchanged.sdb,unchanged.process]
    exact books
  | loads fileName loads =>
    cases phase with
    | idle state pid preAddr preVal childless empty unharmed =>
      refine ⟨fun pending => absurd (loads.preAddr.trans preAddr) pending,?_⟩
      intro a v listed
      rw [loads.addrList,empty loads.idle] at listed
      simp at listed
    | live c state => exact absurd loads.idle (by simp [state])
    | dead signal state => exact absurd loads.idle (by simp [state])
  | starts pid c m started =>
    cases phase with
    | idle state pid' preAddr =>
      rw [started.sdb]
      exact ⟨fun pending => absurd preAddr pending,books.saved⟩
    | live c' state => exact absurd started.loaded (by simp [state])
    | dead signal state => exact absurd started.loaded (by simp [state])
  | affects command c running live affects =>
    obtain ⟨heard,effect,_⟩ := affects
    rw [live] at books
    exact effect_consistent w s.clock s.sdb t.sdb c command t.process heard effect books (keeps c live)

/-- In a run whose steps keep the saved words up to date, a pending hit and the
list are what they should be at every prompt. -/
theorem keeping_run_consistent (w : World) (s : Session)
    (run : Guarded (debugger w) (Within w (StepKeeps w)) s) : Consistent w s.sdb s.process := by
  refine (prompt_invariant w (StepKeeps w) (fun s => Consistent w s.sdb s.process) ?_ ?_ run).2
  · intro elf sect name
    refine ⟨fun pending => absurd rfl pending,?_⟩
    intro a v listed
    simp [Session.create,SDB.create] at listed
  · intro s command t phase books keeps moved
    exact moved_consistent w s t command phase books keeps moved

def trapping : World := sampleWorld [] fun _ _ c => .stopped SIGTRAP (c.withRip 0x1001)

def hitAndDelete : List Command := [.load "a.out",.start,.break 0x1000,.cont,.delete 0]

/-- Deleting the breakpoint just hit leaves it pending. -/
theorem deleted_hit_pending : Reachable (debugger trapping) (sampleSession trapping hitAndDelete) ∧
    (sampleSession trapping hitAndDelete).sdb.state = .running ∧
    ¬ Consistent trapping (sampleSession trapping hitAndDelete).sdb
      (sampleSession trapping hitAndDelete).process := by
  refine ⟨sample_reachable _ _,rfl,?_⟩
  intro books
  have listed := (books.pending (by decide)).1
  revert listed
  decide

theorem Settles.once {w : World} {d e : SDB} {report : Report} {p : Process} {heard : List Report}
    (settles : Settles w d report e p heard) (apart : ∀ c, report = .stopped SIGTRAP c → c.regs.rip ∉ d.addrList) :
    heard = [report] := by
  cases settles with
  | nested _ _ c mapped before here => exact absurd here (apart c rfl)
  | _ => rfl

theorem cycling_resumes {clock : Nat} {d : SDB} {c : Child} (few : ∀ a ∈ d.addrList, a = 0x1003 ∨ a = 0x100f)
    (mapped : Mapped (lifted d c.mem) 0x100f) (request : Request) : ResumeKeeps cycling clock d c request := by
  intro time report e p heard told settles
  obtain ended | ⟨rip,places,stopped⟩ := cycling_told told
  · subst ended
    have once := settles.once fun after impossible => by cases impossible
    exact ⟨trivial,fun after member => by simp [once] at member⟩
  · subst stopped
    have once := settles.once fun after here listed => by
      cases here
      obtain rfl | rfl := places
      · exact absurd (few 0x1000 listed) (by decide)
      · exact absurd (few 0x1010 listed) (by decide)
    refine ⟨fun _ differs => absurd rfl differs,fun after member listed => ?_⟩
    rw [once,List.mem_singleton] at member
    cases member
    change rip-1 ∈ d.addrList at listed
    change Mapped (lifted d c.mem) (rip-1)
    have trap : rip-1 = 0xfff ∨ rip-1 = 0x100f := by
      obtain rfl | rfl := places <;> decide
    obtain trap | trap := trap <;> rw [trap] at listed ⊢
    · exact absurd (few _ listed) (by decide)
    · exact mapped

theorem cycled_keeps (k : Nat) (bound : k < 10) : StepKeeps cycling (cycled k) (rounds.getD k .help) := by
  have resumes (n : Nat) {keys : List Word} (listed : (cycled n).sdb.addrList.toList.map Prod.fst = keys)
      (few : keys ⊆ [0x1003,0x100f])
      (mapped : ∀ c ∈ (cycled n).tracee, ∀ i < 8, (lifted (cycled n).sdb c.mem (0x100f+BitVec.ofNat 64 i)).isSome)
      (request : Request) (c : Child) (stopped : (cycled n).process = .stopped (cycled n).sdb.pid c) :
      ResumeKeeps cycling (cycled n).clock (cycled n).sdb c request := by
    refine cycling_resumes (fun a member => ?_) (mapped c ((tracee_some _ c).mpr stopped)) request
    rw [← mem_keys,listed] at member
    simpa using few member
  have breaks (n : Nat) (addr : Word) (none : (cycled n).sdb.preAddr = 0)
      (fresh : ∀ c ∈ (cycled n).tracee, c.mem addr = cycling.image (cycled n).sdb.programName addr) :
      StepKeeps cycling (cycled n) (.break addr) :=
    fun c stopped _ _ => ⟨fresh c ((tracee_some _ c).mpr stopped),fun pending => absurd none pending⟩
  interval_cases k
  case «2» => exact breaks 2 0x1003 (by decide +kernel) (by decide +kernel)
  case «3» => exact breaks 3 0x100f (by decide +kernel) (by decide +kernel)
  case «4» =>
    have keys : (cycled 4).sdb.addrList.toList.map Prod.fst = [0x1003#64,0x100f#64] := by decide +kernel
    exact resumes 4 keys (by simp) (by decide +kernel) .cont
  case «5» =>
    intro c stopped addr value _ found pending
    have hit : (cycled 5).sdb.preAddr = 0x100f := by decide +kernel
    cases cycled_deletes.symm.trans found
    rw [hit]
    refine ⟨by decide,fun x _ near inside => absurd inside ?_⟩
    unfold offset at near ⊢
    bv_omega
  case «6» =>
    have keys : (cycled 6).sdb.addrList.toList.map Prod.fst = [0x100f#64] := by decide +kernel
    exact resumes 6 keys (by simp) (by decide +kernel) .singlestep
  case «7» =>
    have keys : (cycled 7).sdb.addrList.toList.map Prod.fst = [0x100f#64] := by decide +kernel
    exact resumes 7 keys (by simp) (by decide +kernel) .cont
  case «9» =>
    have keys : (cycled 9).sdb.addrList.toList.map Prod.fst = [0x100f#64] := by decide +kernel
    exact resumes 9 keys (by simp) (by decide +kernel) .cont
  all_goals exact fun _ _ => trivial

theorem keeping_run_consistent_listed : (cycled 10).sdb.preAddr = 0x100f ∧
    (cycled 10).sdb.addrList[0x100f#64]? = some 0x9090909090909090#64 ∧
    Consistent cycling (cycled 10).sdb (cycled 10).process :=
  ⟨by decide +kernel,by decide +kernel,keeping_run_consistent cycling _ ((cycled_run cycled_keeps).guarded le_rfl)⟩

end Unixprog.Sdb
