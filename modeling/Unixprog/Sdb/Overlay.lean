import Unixprog.Sdb.Lifecycle

/-! The .text of the child against the program's own bytes. The trap bytes are
right as long as every word that is written back agrees with its neighbours. -/
namespace Unixprog.Sdb
open Words Runs

def overlay (image : Memory) (list : AddrList) : Memory :=
  fun x => if x ∈ list then some 0xcc else image x

theorem overlay_listed {image : Memory} {list : AddrList} {x : Word} (listed : x ∈ list) :
    overlay image list x = some 0xcc := if_pos listed

theorem overlay_unlisted {image : Memory} {list : AddrList} {x : Word} (unlisted : x ∉ list) :
    overlay image list x = image x := if_neg unlisted

theorem overlay_insert (image : Memory) (list : AddrList) (a v : Word) :
    overlay image (list.insert a v) = Function.update (overlay image list) a (some 0xcc) := by
  funext x
  by_cases here : x = a
  · subst x
    simp [overlay]
  · have apart : ¬ a = x := fun same => here same.symm
    simp [overlay,Function.update_of_ne here,apart]

theorem overlay_erase (image : Memory) (list : AddrList) (a : Word) :
    overlay image (list.erase a) = Function.update (overlay image list) a (image a) := by
  funext x
  by_cases here : x = a
  · subst x
    simp [overlay]
  · have apart : ¬ a = x := fun same => here same.symm
    simp [overlay,Function.update_of_ne here,apart]

def World.image (w : World) (name : String) : Memory :=
  match w.exec name with
  | some c => c.mem
  | none => fun _ => none

def World.KeepsText (w : World) (text : Word → Prop) : Prop :=
  ∀ time clock request c signal after, w.resume time clock request c = some (.stopped signal after) →
    ∀ x, text x → after.mem x = c.mem x

def World.NullUnmapped (w : World) : Prop := ∀ name, w.image name 0 = none

def SDB.text (d : SDB) (x : Word) : Prop := d.inText x = true

def World.goal (w : World) (d : SDB) : Memory := overlay (w.image d.programName) d.addrList

theorem goal_insert (w : World) (d : SDB) (a v : Word) :
    w.goal (d.insert a v) = Function.update (w.goal d) a (some 0xcc) := overlay_insert _ _ _ _

theorem goal_erase (w : World) (d : SDB) (a : Word) :
    w.goal (d.erase a) = Function.update (w.goal d) a (w.image d.programName a) := overlay_erase _ _ _

def Overlaid (w : World) (d : SDB) (p : Process) : Prop :=
  ∀ c, p = .stopped d.pid c → ∀ x, d.text x → c.mem x = w.goal d x

theorem one_overlaid {w : World} {d : SDB} {c : Child} {a v : Word} (list : d.addrList = (∅ : AddrList).insert a v)
    (memory : c.mem = Function.update (w.image d.programName) a (some 0xcc)) (pid : Nat) :
    Overlaid w d (.stopped pid c) := by
  intro child stopped x _
  cases stopped
  have bare : overlay (w.image d.programName) ∅ = w.image d.programName := by
    funext x
    exact overlay_unlisted Std.ExtTreeMap.not_mem_empty
  rw [World.goal,list,overlay_insert,bare,memory]

structure Sound (w : World) (d : SDB) (p : Process) : Prop where
  overlaid : Overlaid w d p
  saved : ∀ (a v : Word), d.addrList[a]? = some v → d.text a ∧ w.image d.programName a = some (byteAt v 0)
  pending : d.preAddr ≠ 0 → d.text d.preAddr ∧ w.image d.programName d.preAddr = some (byteAt d.preVal 0)

/-! The condition on a step. -/

/-- A resumption with a pending hit puts the saved word back, and a SIGTRAP stop
the trap: the word must still agree with .text, and the trap must still be due
exactly when it is put back. -/
def ResumeFits (w : World) (clock : Nat) (d : SDB) (c : Child) (request : Request) : Prop :=
  ∀ time signal after, d.preAddr ≠ 0 →
    w.resume time clock request {c with mem := lifted d c.mem} = some (.stopped signal after) →
    Agrees d.text c.mem d.preAddr d.preVal ∧
      (w.image d.programName d.preAddr = some 0xcc ∨ (d.preAddr ∈ d.addrList ↔ signal = SIGTRAP))

def CommandFits (w : World) (clock : Nat) (d : SDB) (c : Child) : Command → Prop
  | .delete id => ∀ addr value, 0 ≤ id → d.addrList.toList[id.toNat]? = some (addr,value) →
      Agrees d.text c.mem addr value
  | .si => ResumeFits w clock d c .singlestep
  | .cont => ResumeFits w clock d c .cont
  | .run => ResumeFits w clock d c .cont
  | _ => True

/-- The re-arming loop writes 0xff after each trap. -/
def RearmFits (w : World) (d : SDB) : Prop :=
  ∀ a ∈ d.addrList, ∀ i, 0 < i → i < 8 → d.text (a+BitVec.ofNat 64 i) →
    a+BitVec.ofNat 64 i ∈ d.addrList ∨ w.image d.programName (a+BitVec.ofNat 64 i) = some 0xff

def StepFits (w : World) (s : Session) (command : Command) : Prop :=
  (∀ c, s.process = .stopped s.sdb.pid c → CommandFits w s.clock s.sdb c command) ∧
    (command = .start → s.sdb.state = .loaded → RearmFits w s.sdb)

theorem CommandFits.resume {w : World} {clock : Nat} {d : SDB} {c : Child} {command : Command}
    {request : Request} (fits : CommandFits w clock d c command) (lets : command.request = some request) :
    ResumeFits w clock d c request := by
  cases command with
  | si => cases lets; exact fits
  | cont => cases lets; exact fits
  | run => cases lets; exact fits
  | _ => cases lets

/-! One resumption. -/

theorem restored_clear (m : Memory) : restored 0 m = m := by simp [restored]

/-- The .text a report leads to, once the trap is put back after a SIGTRAP stop. -/
def Lands (text : Word → Prop) (goal : Memory) (preAddr : Word) : Report → Prop
  | .ended _ => True
  | .stopped signal c => ∀ x, text x → (if signal = SIGTRAP then restored preAddr c.mem else c.mem) x = goal x

theorem Settles.lands {w : World} {d e : SDB} {report : Report} {p : Process} {heard : List Report}
    (settles : Settles w d report e p heard) (text : Word → Prop) (goal : Memory) (keeps : w.KeepsText text)
    (lands : Lands text goal d.preAddr report) (pid : Nat) (c : Child) (stopped : p = .stopped pid c) :
    ∀ x, text x → c.mem x = goal x := by
  induction settles with
  | exited d code => cases stopped
  | signaled d signal => cases stopped
  | other d signal c differs =>
    cases stopped
    simpa [Lands,differs] using lands
  | hit d c value mapped listed =>
    cases stopped
    simpa [Lands,Child.withRip,Child.restored] using lands
  | pass d c mapped before here =>
    cases stopped
    simpa [Lands,Child.restored] using lands
  | nested d e c mapped before here fuel clock report p heard resumed rest ih =>
    refine ih ?_ stopped
    cases report with
    | ended ending => trivial
    | stopped signal after =>
      intro x inside
      have kept := keeps _ _ _ _ _ _ resumed x inside
      have landed := lands x inside
      simp only [if_true] at landed
      simp only [restored_clear,ite_self,kept,Child.restored,landed]

theorem resume_lands (w : World) (clock : Nat) (d : SDB) (c : Child) (request : Request)
    (sound : Sound w d (.stopped d.pid c)) (keeps : w.KeepsText d.text)
    (fits : ResumeFits w clock d c request) (time : Nat) (report : Report)
    (told : w.resume time clock request {c with mem := lifted d c.mem} = some report) :
    Lands d.text (w.goal d) d.preAddr report := by
  cases report with
  | ended ending => trivial
  | stopped signal after =>
    intro x inside
    have ran : after.mem x = lifted d c.mem x := keeps _ _ _ _ _ _ told x inside
    have before := sound.overlaid c rfl x inside
    by_cases pending : d.preAddr = 0
    · simp only [pending,restored_clear,ite_self,ran]
      simpa [lifted,pending] using before
    obtain ⟨agrees,due⟩ := fits time signal after pending told
    obtain ⟨_,low⟩ := sound.pending pending
    have lift : lifted d c.mem x = Function.update c.mem d.preAddr (some (byteAt d.preVal 0)) x := by
      rw [lifted,if_pos pending]
      exact overwrite_agrees _ _ _ _ _ agrees inside
    by_cases here : x = d.preAddr
    · -- The byte of the pending breakpoint itself: a trap after SIGTRAP, else the program's byte.
      subst x
      rw [lift,Function.update_self,← low] at ran
      split
      next trap =>
        simp only [restored,if_pos pending,Function.update_self,World.goal]
        by_cases kept : d.preAddr ∈ d.addrList
        · rw [overlay_listed kept]
        · rw [overlay_unlisted kept,due.resolve_right fun listed => kept (listed.mpr trap)]
      next other =>
        rw [ran,World.goal]
        by_cases kept : d.preAddr ∈ d.addrList
        · rw [overlay_listed kept,due.resolve_right fun listed => other (listed.mp kept)]
        · rw [overlay_unlisted kept]
    · rw [lift,Function.update_of_ne here,before] at ran
      split
      next trap =>
        simp only [restored,if_pos pending,Function.update_of_ne here]
        exact ran
      next other => exact ran

/-! One step. -/

theorem effect_sound (w : World) (clock : Nat) (d e : SDB) (c : Child) (command : Command) (p : Process)
    (heard : List Report) (effect : Effect w clock d c command e p heard)
    (sound : Sound w d (.stopped d.pid c)) (keeps : w.KeepsText d.text)
    (fits : CommandFits w clock d c command) : Sound w e p := by
  have overlaid := sound.overlaid c rfl
  cases effect with
  | quiet => exact sound
  | insert addr code inside fresh found =>
    refine ⟨?_,?_,sound.pending⟩
    · intro after stopped x within
      cases stopped
      rw [goal_insert]
      by_cases here : x = addr
      · subst x
        simp
      · simp only [Function.update_of_ne here]
        exact overlaid x within
    · intro a v listed
      rw [insert_lookup] at listed
      split at listed
      next here =>
        cases listed
        subst a
        have byte := overlaid addr inside
        rw [World.goal,overlay_unlisted fresh,fetch_first _ _ _ found] at byte
        exact ⟨inside,byte.symm⟩
      next other => exact sound.saved a v listed
  | erase id addr value valid found mapped =>
    have listed : d.addrList[addr]? = some value := by
      have member := List.mem_of_getElem? found
      rwa [Std.ExtTreeMap.mem_toList_iff_getElem?_eq_some] at member
    have agrees : Agrees d.text c.mem addr value := fits addr value valid found
    refine ⟨?_,?_,sound.pending⟩
    · intro after stopped x within
      cases stopped
      refine (overwrite_agrees _ c.mem addr value x agrees within).trans ?_
      rw [goal_erase,(sound.saved addr value listed).2]
      by_cases here : x = addr
      · subst x
        simp
      · simp only [Function.update_of_ne here]
        exact overlaid x within
    · intro a v kept
      rw [erase_lookup] at kept
      split at kept
      next same => cases kept
      next other => exact sound.saved a v kept
  | setRip val =>
    refine ⟨?_,sound.saved,fun pending => absurd rfl pending⟩
    intro after stopped x within
    cases stopped
    exact overlaid x within
  | setOther regName val regs differs named =>
    refine ⟨?_,sound.saved,sound.pending⟩
    intro after stopped x within
    cases stopped
    exact overlaid x within
  | resume _ request lets mapped time report told e p heard settles =>
    obtain ⟨sect,name,list⟩ := settles.frame
    have text : e.text = d.text := by
      funext x
      simp only [SDB.text,SDB.inText,sect]
    have goal : w.goal e = w.goal d := by simp only [World.goal,name,list]
    refine ⟨?_,?_,?_⟩
    · intro after stopped x within
      rw [goal]
      rw [text] at within
      exact settles.lands d.text (w.goal d) keeps (resume_lands w clock d c request sound keeps
        (fits.resume lets) time report told) _ _ stopped x within
    · intro a v listed
      rw [list] at listed
      rw [text,name]
      exact sound.saved a v listed
    · intro pending
      rw [text,name]
      obtain ⟨addr,value⟩ | ⟨v,listed,low⟩ := settles.pending pending
      · rw [addr,value]
        rw [addr] at pending
        exact sound.pending pending
      · rw [low]
        exact sound.saved _ _ listed

/-! Starting. -/

def rearmed (keys : List Word) (m : Memory) : Memory := fun x =>
  if x ∈ keys then some 0xcc
  else if ∃ a ∈ keys, offset a x < 8 then some 0xff
  else m x

theorem byteAt_trapWord_none (i : Nat) (small : i < 8) :
    byteAt (trapWord (-1)) i = if i = 0 then 0xcc else 0xff := by
  interval_cases i <;> decide

theorem rearmAll_cons (a : Word) (keys : List Word) (m after : Memory) (null : m 0 = none)
    (armed : rearmAll 0 (a::keys) m = some after) :
    Mapped m a ∧ rearmAll 0 keys (overwrite m a fun i => some (byteAt (trapWord (-1)) i)) = some after := by
  have unmapped : ¬ Mapped m 0 := by
    intro mapped
    have present := mapped.first
    rw [null] at present
    cases present
  rw [rearmAll,List.foldlM_cons,fetch_unmapped m 0 unmapped] at armed
  by_cases mapped : Mapped m a
  · rw [store_mapped _ _ _ mapped] at armed
    exact ⟨mapped,armed⟩
  · rw [store_unmapped _ _ _ mapped] at armed
    cases armed

/-- The keys come in ascending order, so a trap is never covered by an earlier key's word. -/
theorem rearmAll_rearmed (keys : List Word) (m after : Memory) (null : m 0 = none)
    (ascending : keys.Pairwise (· < ·)) (armed : rearmAll 0 keys m = some after) :
    after = rearmed keys m ∧ ∀ a ∈ keys, Mapped m a := by
  induction keys generalizing m with
  | nil =>
    cases armed
    exact ⟨by funext x; simp [rearmed],by simp⟩
  | cons a keys ih =>
    obtain ⟨mapped,rest⟩ := rearmAll_cons a keys m after null armed
    obtain ⟨later,ascending⟩ := List.pairwise_cons.mp ascending
    have away : ¬ offset a 0 < 8 := by
      intro near
      have first := (mapped.forward null near)
      have zero : a = 0 := by simpa using first
      have present := mapped.first
      rw [zero,null] at present
      cases present
    obtain ⟨done,written⟩ := ih (overwrite m a fun i => some (byteAt (trapWord (-1)) i))
      (by rw [overwrite_outside _ _ _ _ away,null]) ascending rest
    have all (b : Word) (member : b ∈ keys) : Mapped m b := (overwrite_mapped m a b _ mapped).mp (written b member)
    refine ⟨?_,by simpa using ⟨mapped,all⟩⟩
    rw [done]
    funext x
    by_cases listed : x ∈ keys
    · simp [rearmed,listed]
    by_cases covered : ∃ b ∈ keys, offset b x < 8
    · obtain ⟨b,member,near⟩ := covered
      have other : x ≠ a := by
        rintro rfl
        have ahead := (all b member).forward null near
        have behind := later b member
        bv_omega
      simp only [rearmed,listed,if_false,List.mem_cons,other,or_self]
      rw [if_pos ⟨b,member,near⟩,if_pos ⟨b,.inr member,near⟩]
    · simp only [rearmed,listed,if_false,if_neg covered,List.mem_cons,or_false]
      by_cases near : offset a x < 8
      · rw [overwrite,if_pos near,byteAt_trapWord_none _ near]
        by_cases here : x = a
        · subst x
          simp
        · have apart : offset a x ≠ 0 := fun none => here (offset_zero.mp none)
          rw [if_neg apart,if_neg here,if_pos ⟨a,.inl rfl,near⟩]
      · have other : x ≠ a := by
          rintro rfl
          simp at near
        rw [overwrite_outside _ _ _ _ near,if_neg other,if_neg]
        rintro ⟨b,rfl | member,near'⟩
        · exact near near'
        · exact covered ⟨b,member,near'⟩

theorem keys_ascending (list : AddrList) : (list.toList.map Prod.fst).Pairwise (· < ·) := by
  rw [Std.ExtTreeMap.map_fst_toList_eq_keys]
  refine List.Pairwise.imp ?_ Std.ExtTreeMap.ordered_keys
  intro a b less
  exact compareOfLessAndEq_eq_lt.mp less

theorem mem_keys (list : AddrList) (x : Word) : x ∈ list.toList.map Prod.fst ↔ x ∈ list := by
  rw [Std.ExtTreeMap.map_fst_toList_eq_keys,Std.ExtTreeMap.mem_keys]

theorem started_memory (w : World) (s t : Session) (pid : ℕ+) (c : Child) (m : Memory)
    (nulls : w.NullUnmapped) (clear : s.sdb.preAddr = 0) (started : Started w s t pid c m) :
    m = rearmed (s.sdb.addrList.toList.map Prod.fst) c.mem ∧ ∀ a ∈ s.sdb.addrList, Mapped c.mem a := by
  have image := nulls s.sdb.programName
  rw [World.image,started.image] at image
  have armed := started.armed
  rw [clear] at armed
  obtain ⟨same,mapped⟩ := rearmAll_rearmed _ _ _ image (keys_ascending _) armed
  exact ⟨same,fun a listed => mapped a ((mem_keys _ a).mpr listed)⟩

theorem started_sound (w : World) (s t : Session) (pid : ℕ+) (c : Child) (m : Memory)
    (nulls : w.NullUnmapped) (clear : s.sdb.preAddr = 0) (fits : RearmFits w s.sdb)
    (sound : Sound w s.sdb s.process) (started : Started w s t pid c m) : Sound w t.sdb t.process := by
  obtain ⟨memory,mapped⟩ := started_memory w s t pid c m nulls clear started
  have text : t.sdb.text = s.sdb.text := by rw [started.sdb]; rfl
  have list : t.sdb.addrList = s.sdb.addrList := by rw [started.sdb]; rfl
  have name : t.sdb.programName = s.sdb.programName := by rw [started.sdb]; rfl
  have image : w.image s.sdb.programName = c.mem := by rw [World.image,started.image]
  refine ⟨?_,?_,?_⟩
  · intro after stopped x within
    rw [started.process,started.sdb] at stopped
    cases stopped
    simp only [memory,rearmed,mem_keys,World.goal,overlay,list,name,image]
    split
    next listed => rfl
    next unlisted =>
      split
      next covered =>
        obtain ⟨a,listed,near⟩ := covered
        have later : 0 < offset a x := by
          apply Nat.pos_of_ne_zero
          intro none
          exact unlisted (offset_zero.mp none ▸ listed)
        have inside : s.sdb.text (a+BitVec.ofNat 64 (offset a x)) := by
          rw [add_offset,← text]
          exact within
        obtain key | byte := fits a listed (offset a x) later near inside
        · rw [add_offset] at key
          exact absurd key unlisted
        · rw [add_offset,image] at byte
          exact byte.symm
      next free => rfl
  · rw [text,list,name]
    exact sound.saved
  · intro pending
    rw [started.sdb] at pending
    exact absurd clear pending

theorem Unchanged.sound {w : World} {s t : Session} (same : Unchanged s t) (sound : Sound w s.sdb s.process) :
    Sound w t.sdb t.process := by
  rw [same.sdb,same.process]
  exact sound

theorem loads_sound (w : World) (s t : Session) (phase : Phase s) (loads : Loads s t) :
    Sound w t.sdb t.process := by
  cases phase with
  | idle state pid preAddr preVal childless empty unharmed =>
    have list : t.sdb.addrList = ∅ := loads.addrList.trans (empty loads.idle)
    refine ⟨?_,?_,?_⟩
    · intro c stopped
      rw [loads.process,loads.pid,← tracee_some,childless] at stopped
      cases stopped
    · intro a v listed
      simp [list] at listed
    · intro pending
      exact absurd (loads.preAddr.trans preAddr) pending
  | live c state => exact absurd loads.idle (by simp [state])
  | dead signal state => exact absurd loads.idle (by simp [state])

theorem moved_sound (w : World) (s t : Session) (command : Command) (nulls : w.NullUnmapped) (phase : Phase s)
    (inv : w.KeepsText s.sdb.text → Sound w s.sdb s.process) (fits : StepFits w s command)
    (moved : Moved w s command t) (keeps : w.KeepsText t.sdb.text) : Sound w t.sdb t.process := by
  cases moved with
  | same command unchanged =>
    rw [unchanged.sdb] at keeps
    exact unchanged.sound (inv keeps)
  | loads fileName loads => exact loads_sound w s t phase loads
  | starts pid c m started =>
    have text : t.sdb.text = s.sdb.text := by rw [started.sdb]; rfl
    rw [text] at keeps
    cases phase with
    | idle state pid' preAddr =>
      exact started_sound w s t pid c m nulls preAddr (fits.2 rfl started.loaded) (inv keeps) started
    | live c' state => exact absurd started.loaded (by simp [state])
    | dead signal state => exact absurd started.loaded (by simp [state])
  | affects command c running live affects =>
    obtain ⟨heard,effect,_⟩ := affects
    have text : t.sdb.text = s.sdb.text := by
      funext x
      simp only [SDB.text,SDB.inText,effect.frame.1]
    rw [text] at keeps
    have sound := inv keeps
    rw [live] at sound
    exact effect_sound w s.clock s.sdb t.sdb c command t.process heard effect sound keeps (fits.1 c live)

/-- In a run whose steps write back only words that fit, .text is the program's
with a trap at exactly the listed addresses. -/
theorem fitting_run_overlaid (w : World) (s : Session) (nulls : w.NullUnmapped)
    (keeps : w.KeepsText s.sdb.text) (run : Guarded (debugger w) (Within w (StepFits w)) s) :
    Overlaid w s.sdb s.process := by
  have inv := prompt_invariant w (StepFits w) (fun s => w.KeepsText s.sdb.text → Sound w s.sdb s.process)
    ?_ ?_ run
  · exact (inv.2 keeps).overlaid
  · intro elf sect name _
    refine ⟨?_,?_,?_⟩
    · intro c stopped
      cases stopped
    · intro a v listed
      simp [Session.create,SDB.create] at listed
    · intro pending
      exact absurd rfl pending
  · intro s command t phase inv fits moved
    exact moved_sound w s t command nulls phase inv fits moved

def exiting : World := sampleWorld [] fun _ _ _ => .ended (.exited 0)

theorem exiting_keeps (text : Word → Prop) : exiting.KeepsText text := by
  intro time clock request c signal after told
  cases told

theorem sample_nulls (code : List Byte) (kernel : Nat → Request → Child → Report) :
    (sampleWorld code kernel).NullUnmapped := fun _ => rfl

def neighbours : List Command := [.load "a.out",.start,.break 0x1000,.break 0x1001,.delete 0]

/-- Two neighbours, the first one deleted: the second is listed without a trap. -/
theorem neighbours_lose_trap : Reachable (debugger exiting) (sampleSession exiting neighbours) ∧
    exiting.NullUnmapped ∧ exiting.KeepsText (sampleSession exiting neighbours).sdb.text ∧
    (sampleSession exiting neighbours).sdb.state = .running ∧
    ¬ Overlaid exiting (sampleSession exiting neighbours).sdb (sampleSession exiting neighbours).process := by
  refine ⟨sample_reachable _ _,sample_nulls _ _,exiting_keeps _,rfl,?_⟩
  intro overlaid
  have trap := overlaid _ rfl 0x1001 rfl
  revert trap
  decide

/-! A program that is stopped behind 0x100f when it is continued, but exits the third
time that it is let run. -/

def cycling : World := sampleWorld [] fun clock request c =>
  match request with
  | .singlestep => .stopped SIGTRAP (c.withRip 0x1000)
  | .cont => if clock = 3 then .ended (.exited 0) else .stopped SIGTRAP (c.withRip 0x1010)

theorem cycling_told {time clock : Nat} {request : Request} {c : Child} {report : Report}
    (told : cycling.resume time clock request c = some report) : report = .ended (.exited 0) ∨
      ∃ rip, (rip = 0x1000 ∨ rip = 0x1010) ∧ report = .stopped SIGTRAP (c.withRip rip) := by
  cases request with
  | singlestep =>
    cases told
    exact .inr ⟨_,.inl rfl,rfl⟩
  | cont =>
    simp only [cycling,sampleWorld,Option.some.injEq] at told
    split at told
    next => exact .inl told.symm
    next => exact .inr ⟨_,.inr rfl,told.symm⟩

theorem cycling_keeps (text : Word → Prop) : cycling.KeepsText text := by
  intro time clock request c signal after told x _
  obtain ended | ⟨rip,_,stopped⟩ := cycling_told told
  · cases ended
  · cases stopped
    rfl

/-- Of two breakpoints one is hit and the other deleted, the program exits and is started
again, up to the next hit. -/
def rounds : List Command :=
  [.load "a.out",.start,.break 0x1003,.break 0x100f,.cont,.delete 0,.si,.cont,.start,.cont]

def cycled (k : Nat) : Session := sampleSession cycling (rounds.take k)

theorem cycled_run {ok : Session → Command → Prop} (meets : ∀ k < 10, ok (cycled k) (rounds.getD k .help)) :
    Run (debugger cycling) (Within cycling ok) 10 cycled fun k => (9,rounds.getD k .help) := by
  refine ⟨⟨_,_,_,rfl⟩,fun k bound => ?_,fun k bound => within_calm 9 ?_ (meets k bound)⟩
  · interval_cases k <;> rfl
  · interval_cases k <;> simp [rounds]

theorem cycled_deletes : (cycled 5).sdb.addrList.toList[(0 : Int).toNat]? = some (0x1003#64,0x9090909090909090#64) := by
  decide +kernel

theorem cycled_pending : (cycled 6).sdb.preAddr = 0x100f := by decide +kernel

/-- 0x100f is the last address of .text. -/
theorem last_text {d : SDB} (text : d.sectHeader = (cycled 6).sdb.sectHeader) {i : Nat} (positive : 0 < i) (small : i < 8) :
    ¬ d.text (0x100f#64+BitVec.ofNat 64 i) := by
  have behind : ∀ i < 8, 0 < i → (cycled 6).sdb.inText (0x100f#64+BitVec.ofNat 64 i) = false := by decide +kernel
  rw [SDB.text,SDB.inText,text]
  simpa [SDB.inText] using behind i small positive

theorem cycled_fits (k : Nat) (bound : k < 10) : StepFits cycling (cycled k) (rounds.getD k .help) := by
  have clear (n : Nat) (none : (cycled n).sdb.preAddr = 0) : StepFits cycling (cycled n) .cont :=
    ⟨fun _ _ _ _ _ pending => absurd none pending,fun other => by cases other⟩
  interval_cases k
  case «1» => exact ⟨fun _ _ => trivial,fun _ _ a listed => absurd listed Std.ExtTreeMap.not_mem_empty⟩
  case «4» => exact clear 4 (by decide +kernel)
  case «5» =>
    refine ⟨fun c stopped addr value _ found i positive small _ => ?_,fun other => by cases other⟩
    have bytes : ∀ c ∈ (cycled 5).tracee, ∀ i < 8, 0 < i →
        c.mem (0x1003#64+BitVec.ofNat 64 i) = some (byteAt 0x9090909090909090#64 i) := by decide +kernel
    cases cycled_deletes.symm.trans found
    exact bytes c ((tracee_some _ c).mpr stopped) i small positive
  case «6» =>
    refine ⟨fun c _ time signal after _ told => ?_,fun other => by cases other⟩
    have listed : 0x100f#64 ∈ (cycled 6).sdb.addrList := by decide +kernel
    cases told
    rw [cycled_pending]
    exact ⟨fun i positive small inside => absurd inside (last_text rfl positive small),.inr (iff_of_true listed rfl)⟩
  case «7» => exact clear 7 (by decide +kernel)
  case «8» =>
    refine ⟨fun _ _ => trivial,fun _ _ a listed i positive small inside => ?_⟩
    have keys : (cycled 8).sdb.addrList.toList.map Prod.fst = [0x100f#64] := by decide +kernel
    rw [← mem_keys,keys,List.mem_singleton] at listed
    rw [listed] at inside
    exact absurd inside (last_text (by decide +kernel) positive small)
  case «9» => exact clear 9 (by decide +kernel)
  all_goals exact ⟨fun _ _ => trivial,fun other => by cases other⟩

theorem fitting_run_overlaid_listed : (cycled 10).sdb.preAddr = 0x100f ∧
    (cycled 10).sdb.addrList[0x100f#64]? = some 0x9090909090909090#64 ∧
    Overlaid cycling (cycled 10).sdb (cycled 10).process :=
  ⟨by decide +kernel,by decide +kernel,
    fitting_run_overlaid cycling _ (sample_nulls _ _) (cycling_keeps _) ((cycled_run cycled_fits).guarded le_rfl)⟩

end Unixprog.Sdb
