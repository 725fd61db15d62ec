import Unixprog.Sdb.Debugger

/-! What each method can do, said once. `Settles` covers check_process with its
nested steps, `Effect` a command on a stopped child. Printing is left out. -/
namespace Unixprog.Sdb
open Words

/-! Methods that only read and print. -/

structure Unchanged (s t : Session) : Prop where
  sdb : t.sdb = s.sdb
  process : t.process = s.process
  clock : t.clock = s.clock
  statuses : t.statuses = s.statuses

def Quiet {α : Type} (op : Op α) : Prop := ∀ s a t, op.run s = .done a t → Unchanged s t

section QuietOperations
variable {α β : Type}

theorem Unchanged.refl (s : Session) : Unchanged s s := ⟨rfl,rfl,rfl,rfl⟩

theorem Unchanged.trans {s t u : Session} (first : Unchanged s t) (second : Unchanged t u) :
    Unchanged s u :=
  ⟨second.sdb.trans first.sdb,second.process.trans first.process,second.clock.trans first.clock,
    second.statuses.trans first.statuses⟩

theorem quiet_pure (value : α) : Quiet (pure value : Op α) := by
  intro s a t ok
  cases ok
  exact .refl s

theorem quiet_read : Quiet read := by
  intro s a t ok
  cases ok
  exact .refl s

theorem quiet_say (message : Message) : Quiet (say message) := by
  intro s a t ok
  cases ok
  exact ⟨rfl,rfl,rfl,rfl⟩

theorem quiet_debug (text : String) : Quiet (debug text) := quiet_say _

theorem quiet_error (text : String) (line : Nat) : Quiet (error text line : Op α) := by
  intro s a t ok
  simp at ok

theorem quiet_peekText (addr : Word) : Quiet (peekText addr) := by
  intro s a t ok
  cases ok
  exact .refl s

theorem quiet_getRegs : Quiet getRegs := by
  intro s a t ok
  cases ok
  exact .refl s

theorem quiet_fopen (w : World) (content : Option α) : Quiet (fopen w content) := by
  intro s a t ok
  unfold fopen at ok
  dsimp only at ok
  split at ok
  · cases ok
    exact .refl s
  · cases ok
    exact ⟨rfl,rfl,rfl,rfl⟩

theorem quiet_bind {first : Op α} {next : α → Op β} (one : Quiet first) (two : ∀ a, Quiet (next a)) :
    Quiet (first >>= next) := by
  intro s b t ok
  obtain ⟨a,u,begun,rest⟩ := bind_done _ _ _ _ _ ok
  exact (one s a u begun).trans (two a u b t rest)

theorem quiet_ite (c : Prop) [Decidable c] {first second : Op α} (one : Quiet first) (two : Quiet second) :
    Quiet (if c then first else second) := by
  split
  · exact one
  · exact two

theorem quiet_forM (items : List α) {f : α → Op Unit} (each : ∀ item, Quiet (f item)) :
    Quiet (items.forM f) := by
  induction items with
  | nil => exact quiet_pure ()
  | cons item items ih => exact quiet_bind (each item) fun _ => ih

end QuietOperations

theorem quiet_help : Quiet help := quiet_forM _ fun _ => quiet_say _

theorem quiet_list : Quiet list :=
  quiet_bind quiet_read fun _ => quiet_forM _ fun _ => quiet_say _

theorem quiet_getregs : Quiet getregs := by
  refine quiet_bind quiet_read fun s => quiet_ite _ (quiet_debug _) (quiet_bind quiet_getRegs fun regs => ?_)
  cases regs with
  | none => exact quiet_error _ _
  | some regs => exact quiet_say _

theorem quiet_get (regName : String) : Quiet (get regName) := by
  refine quiet_bind quiet_read fun s => quiet_ite _ (quiet_debug _) (quiet_bind quiet_getRegs fun regs => ?_)
  cases regs with
  | none => exact quiet_error _ _
  | some regs =>
    cases found : getReg regs regName with
    | none => simpa only [found] using quiet_pure ()
    | some value => simpa only [found] using quiet_say _

theorem quiet_dumpRow (addr : Word) : Quiet (dumpRow addr) :=
  quiet_bind (quiet_peekText _) fun _ => quiet_bind (quiet_peekText _) fun _ => quiet_say _

theorem quiet_dump (addr : Word) : Quiet (dump addr) :=
  quiet_bind quiet_read fun _ => quiet_ite _ (quiet_debug _)
    (quiet_ite _ (quiet_debug _) (quiet_forM _ fun _ => quiet_dumpRow _))

theorem quiet_disasm (w : World) (addr : Word) (len : Nat) : Quiet (disasm w addr len) := by
  refine quiet_bind quiet_read fun s => quiet_ite _ (quiet_debug _) (quiet_ite _ (quiet_debug _)
    (quiet_ite _ (quiet_error _ _) ?_))
  split
  · exact quiet_debug _
  · exact quiet_forM _ fun _ => quiet_say _

theorem quiet_vmmap (w : World) : Quiet (vmmap w) := by
  refine quiet_bind quiet_read fun s => quiet_ite _ (quiet_debug _) (quiet_bind (quiet_fopen w _) fun lines => ?_)
  cases lines with
  | none => exact quiet_error _ _
  | some lines => exact quiet_forM _ fun _ => quiet_say _

/-! The requests on a stopped child. -/

section Live
variable {s : Session} {c : Child}

theorem tracee_live (live : s.process = .stopped s.sdb.pid c) : s.tracee = some c :=
  (tracee_some s c).mpr live

theorem peekText_live (live : s.process = .stopped s.sdb.pid c) (addr : Word) :
    (peekText addr).run s = .done ((fetch c.mem addr).getD (-1)) s := by
  simp only [peekText,tracee_live live,Option.bind_some]

theorem pokeText_mapped (live : s.process = .stopped s.sdb.pid c) (addr data : Word)
    (mapped : Mapped c.mem addr) :
    (pokeText addr data).run s =
      .done true (s.withChild {c with mem := overwrite c.mem addr fun i => some (byteAt data i)}) := by
  simp only [pokeText,tracee_live live,store_mapped _ _ _ mapped]

theorem pokeText_unmapped (live : s.process = .stopped s.sdb.pid c) (addr data : Word)
    (unmapped : ¬ Mapped c.mem addr) : (pokeText addr data).run s = .done false s := by
  simp only [pokeText,tracee_live live,store_unmapped _ _ _ unmapped]

theorem getRegs_live (live : s.process = .stopped s.sdb.pid c) : getRegs.run s = .done (some c.regs) s := by
  simp only [getRegs,tracee_live live,Option.map_some]

theorem setRegs_live (live : s.process = .stopped s.sdb.pid c) (regs : Registers) :
    (setRegs regs).run s = .done true (s.withChild {c with regs := regs}) := by
  simp only [setRegs,tracee_live live]

theorem letRun_live (live : s.process = .stopped s.sdb.pid c) (request : Request) :
    (letRun request).run s = .done true {s with process := .resumed s.sdb.pid request c} := by
  simp only [letRun,tracee_live live]

end Live

theorem byteAt_trap (i : Nat) (positive : 0 < i) (small : i < 8) : byteAt 0xcc#64 i = 0 := by
  interval_cases i <;> decide

theorem store_trap (m : Memory) (addr code : Word) (read : fetch m addr = some code) :
    store m addr (trapWord code) = some (Function.update m addr (some 0xcc)) := by
  rw [trapWord,store_withLow m addr code 0xcc#64 read byteAt_trap]
  rfl

theorem overwrite_trap (m : Memory) (addr code : Word) (read : fetch m addr = some code) :
    (overwrite m addr fun i => some (byteAt (trapWord code) i)) = Function.update m addr (some 0xcc) := by
  have written := store_trap m addr code read
  rw [store_mapped _ _ _ (fetch_bytes _ _ _ read).1] at written
  exact Option.some.inj written

def restored (addr : Word) (m : Memory) : Memory :=
  if addr ≠ 0 then Function.update m addr (some 0xcc) else m

theorem restoreBp_done (s t : Session) (c : Child) (live : s.process = .stopped s.sdb.pid c)
    (ok : restoreBp.run s = .done () t) :
    t.sdb = {s.sdb with preAddr := 0} ∧ t.clock = s.clock ∧ t.statuses = s.statuses ∧
      t.process = .stopped s.sdb.pid {c with mem := restored s.sdb.preAddr c.mem} ∧
      (s.sdb.preAddr ≠ 0 → Mapped c.mem s.sdb.preAddr) := by
  simp only [restoreBp,bind_run,read_run,andThen_done,ite_run,say_run] at ok
  split at ok
  next pending =>
    have live' : (s.say (.resetBp s.sdb.preAddr)).process =
        .stopped (s.say (.resetBp s.sdb.preAddr)).sdb.pid c := live
    simp only [peekText_live live',bind_run,andThen_done] at ok
    by_cases mapped : Mapped c.mem s.sdb.preAddr
    · obtain ⟨code,readback,_⟩ := fetch_mapped _ _ mapped
      simp only [pokeText_mapped live' _ _ mapped,readback,Option.getD_some,
        overwrite_trap _ _ _ readback,andThen_done,if_true,onSdb_run,Outcome.done.injEq,true_and] at ok
      subst t
      exact ⟨rfl,rfl,rfl,by rw [restored,if_pos pending]; rfl,fun _ => mapped⟩
    · simp [pokeText_unmapped live' _ _ mapped] at ok
  next clear =>
    have clear : s.sdb.preAddr = 0 := by simpa using clear
    simp only [pure_run,Outcome.done.injEq,true_and] at ok
    subst t
    refine ⟨?_,rfl,rfl,?_,fun pending => absurd clear pending⟩
    · rw [← clear]
    · rw [live,restored,if_neg (by simpa using clear)]

def lifted (d : SDB) (m : Memory) : Memory :=
  if d.preAddr ≠ 0 then overwrite m d.preAddr fun i => some (byteAt d.preVal i) else m

theorem liftTrap_done (line : Nat) (s t : Session) (c : Child) (live : s.process = .stopped s.sdb.pid c)
    (ok : (liftTrap line).run s = .done () t) :
    t.sdb = s.sdb ∧ t.clock = s.clock ∧ t.statuses = s.statuses ∧
      t.process = .stopped s.sdb.pid {c with mem := lifted s.sdb c.mem} ∧
      (s.sdb.preAddr ≠ 0 → Mapped c.mem s.sdb.preAddr) := by
  simp only [liftTrap,bind_run,read_run,andThen_done,ite_run] at ok
  split at ok
  next pending =>
    by_cases mapped : Mapped c.mem s.sdb.preAddr
    · rw [pokeText_mapped live _ _ mapped] at ok
      simp only [andThen_done,if_true,pure_run,Outcome.done.injEq,true_and] at ok
      subst t
      exact ⟨rfl,rfl,rfl,by rw [lifted,if_pos pending]; rfl,fun _ => mapped⟩
    · rw [pokeText_unmapped live _ _ mapped] at ok
      simp at ok
  next clear =>
    simp only [pure_run,Outcome.done.injEq,true_and] at ok
    subst t
    exact ⟨rfl,rfl,rfl,by rw [live,lifted,if_neg clear],fun pending => absurd pending clear⟩

/-- The word saved at a hit: the byte under the trap below what follows it now. -/
def savedWord (m : Memory) (addr value : Word) : Word :=
  (((fetch m addr).getD (-1)) &&& 0xffffffffffffff00#64) ||| (value &&& 0xff#64)

theorem byteAt_low (value : Word) (i : Nat) (small : i < 8) :
    byteAt (value &&& 0xff#64) i = if i = 0 then byteAt value 0 else 0 := by
  have mask : byteAt 0xff#64 i = if i = 0 then 255#8 else 0#8 := by
    interval_cases i <;> decide
  rw [byteAt_and,mask]
  split
  next first =>
    subst i
    exact BitVec.and_allOnes
  next later => simp

theorem byteAt_savedWord (m : Memory) (addr value : Word) (i : Nat) (small : i < 8) :
    byteAt (savedWord m addr value) i =
      if i = 0 then byteAt value 0 else byteAt ((fetch m addr).getD (-1)) i := by
  rw [savedWord,byteAt_withLow _ _ _ small]
  · rw [byteAt_low _ _ (by omega),if_pos rfl]
  · intro k positive bound
    rw [byteAt_low _ _ bound,if_neg (by omega)]

theorem reportHit_done (w : World) (regs : Registers) (addr value : Word) (s t : Session) (c : Child)
    (live : s.process = .stopped s.sdb.pid c) (ok : (reportHit w regs addr value).run s = .done () t) :
    t.sdb = {s.sdb with preAddr := addr,preVal := savedWord c.mem addr value} ∧
      t.statuses = s.statuses ∧
      t.process = .stopped s.sdb.pid {c with regs := {regs with rip := regs.rip-1}} := by
  unfold reportHit at ok
  obtain ⟨_,u,shown,ok⟩ := bind_done _ _ _ _ _ ok
  obtain ⟨_,v,listed,ok⟩ := bind_done _ _ _ _ _ ok
  have same := (quiet_say _ _ _ _ shown).trans (quiet_disasm _ _ _ _ _ _ listed)
  have live' : v.process = .stopped v.sdb.pid c := by rw [same.process,same.sdb,live]
  simp only [bind_run,peekText_live live',andThen_done,onSdb_run] at ok
  rw [setRegs_live (c := c) ?stopped] at ok
  case stopped => exact live'
  simp only [andThen_done,if_true,pure_run,Outcome.done.injEq,true_and] at ok
  subst t
  refine ⟨by rw [← same.sdb]; rfl,same.statuses,?_⟩
  simp only [Session.withChild,same.sdb]

/-! The methods that let the child run. -/

def SDB.afterExit (d : SDB) : SDB := {d with pid := 0,state := .loaded,preVal := 0,preAddr := 0}

def SDB.afterHit (d : SDB) (m : Memory) (addr value : Word) : SDB :=
  {d with preAddr := addr,preVal := savedWord m addr value}

def Child.restored (c : Child) (addr : Word) : Child := {c with mem := Sdb.restored addr c.mem}

def Child.withRip (c : Child) (rip : Word) : Child := {c with regs := {c.regs with rip := rip}}

/-- How check_process ends, given what waitpid reports: the fields and the child
at the return, and every report heard. `nested` is the call of si on a listed rip. -/
inductive Settles (w : World) : SDB → Report → SDB → Process → List Report → Prop
  | exited (d : SDB) (code : Nat) :
      Settles w d (.ended (.exited code)) d.afterExit (.ended d.pid (.exited code)) [.ended (.exited code)]
  | signaled (d : SDB) (signal : Nat) :
      Settles w d (.ended (.signaled signal)) d (.ended d.pid (.signaled signal)) [.ended (.signaled signal)]
  | other (d : SDB) (signal : Nat) (c : Child) (differs : signal ≠ SIGTRAP) :
      Settles w d (.stopped signal c) d (.stopped d.pid c) [.stopped signal c]
  | hit (d : SDB) (c : Child) (value : Word) (mapped : d.preAddr ≠ 0 → Mapped c.mem d.preAddr)
      (listed : d.addrList[c.regs.rip-1]? = some value) :
      Settles w d (.stopped SIGTRAP c)
        (d.afterHit (restored d.preAddr c.mem) (c.regs.rip-1) value)
        (.stopped d.pid ((c.restored d.preAddr).withRip (c.regs.rip-1))) [.stopped SIGTRAP c]
  | pass (d : SDB) (c : Child) (mapped : d.preAddr ≠ 0 → Mapped c.mem d.preAddr)
      (before : c.regs.rip-1 ∉ d.addrList) (here : c.regs.rip ∉ d.addrList) :
      Settles w d (.stopped SIGTRAP c) {d with preAddr := 0} (.stopped d.pid (c.restored d.preAddr))
        [.stopped SIGTRAP c]
  | nested (d e : SDB) (c : Child) (mapped : d.preAddr ≠ 0 → Mapped c.mem d.preAddr)
      (before : c.regs.rip-1 ∉ d.addrList) (here : c.regs.rip ∈ d.addrList)
      (fuel clock : Nat) (report : Report) (p : Process) (heard : List Report)
      (resumed : w.resume fuel clock .singlestep (c.restored d.preAddr) = some report)
      (rest : Settles w {d with preAddr := 0} report e p heard) :
      Settles w d (.stopped SIGTRAP c) e p (.stopped SIGTRAP c::heard)

theorem waitpid_resumed (w : World) (fuel pid : Nat) (s : Session) (request : Request) (c : Child)
    (same : pid = s.sdb.pid) (pending : s.process = .resumed pid request c)
    (status : Option Report) (t : Session) (ok : (waitpid w fuel).run s = .done status t) :
    ∃ report, w.resume fuel s.clock request c = some report ∧ status = some report ∧ t.sdb = s.sdb ∧
      t.statuses = s.statuses ++ [report.status] ∧
      t.process = (match report with
        | .ended ending => .ended s.sdb.pid ending
        | .stopped _ after => .stopped s.sdb.pid after) := by
  subst same
  simp only [waitpid,pending,if_true] at ok
  split at ok
  next quiet => cases ok
  next ending told =>
    cases ok
    exact ⟨_,told,rfl,rfl,rfl,rfl⟩
  next signal after told =>
    cases ok
    exact ⟨_,told,rfl,rfl,rfl,rfl⟩

theorem si_done (w : World) (fuel : Nat) (s t : Session) (c : Child)
    (live : s.process = .stopped s.sdb.pid c) (running : s.sdb.state = .running)
    (ok : (si w (fuel+1)).run s = .done () t) :
    ∃ u, (checkProcess w fuel).run u = .done () t ∧ u.sdb = s.sdb ∧ u.clock = s.clock ∧
      u.statuses = s.statuses ∧
      u.process = .resumed s.sdb.pid .singlestep {c with mem := lifted s.sdb c.mem} ∧
      (s.sdb.preAddr ≠ 0 → Mapped c.mem s.sdb.preAddr) := by
  unfold si at ok
  simp only [bind_run,read_run,andThen_done,running,ne_eq,not_true_eq_false,if_false] at ok
  obtain ⟨_,u,lift,ok⟩ := bind_done _ _ _ _ _ ok
  obtain ⟨sdb,clock,statuses,process,mapped⟩ := liftTrap_done _ _ _ _ live lift
  rw [← sdb] at process
  simp only [bind_run,letRun_live process,andThen_done,if_true] at ok
  exact ⟨_,ok,sdb,clock,statuses,by rw [← sdb],mapped⟩

theorem checkProcess_settles (w : World) (fuel : Nat) (s t : Session) (request : Request) (c : Child)
    (pending : s.process = .resumed s.sdb.pid request c) (running : s.sdb.state = .running)
    (ok : (checkProcess w fuel).run s = .done () t) :
    ∃ report heard, w.resume fuel s.clock request c = some report ∧
      Settles w s.sdb report t.sdb t.process heard ∧
      t.statuses = s.statuses ++ heard.map Report.status := by
  -- Induction on the nesting: a nested si is one unfolding of si and a smaller checkProcess.
  induction fuel using Nat.strong_induction_on generalizing s request c with
  | _ fuel ih =>
  cases fuel with
  | zero => simp [checkProcess] at ok
  | succ fuel =>
    unfold checkProcess at ok
    obtain ⟨status,u,waited,ok⟩ := bind_done _ _ _ _ _ ok
    obtain ⟨report,told,same,sdb,statuses,process⟩ := waitpid_resumed w _ _ _ _ _ rfl pending _ _ waited
    simp only [bind_run,read_run,andThen_done,same] at ok
    cases report with
    | ended ending =>
      cases ending with
      | exited code =>
        simp only [bind_run,debug_run,andThen_done,onSdb_run,Outcome.done.injEq,true_and] at ok
        subst t
        simp only [say_sdb,say_process,say_statuses,process,sdb]
        exact ⟨_,_,told,.exited s.sdb code,statuses⟩
      | signaled signal =>
        simp only [debug_run,Outcome.done.injEq,true_and] at ok
        subst t
        simp only [say_sdb,say_process,say_statuses,process,sdb]
        exact ⟨_,_,told,.signaled s.sdb signal,statuses⟩
    | stopped signal after =>
      by_cases trap : signal = SIGTRAP
      · subst trap
        simp only [if_true] at ok
        have live : u.process = .stopped u.sdb.pid after := by rw [process,sdb]
        obtain ⟨_,v,rearmed,ok⟩ := bind_done _ _ _ _ _ ok
        obtain ⟨sdb',_,statuses',process',mapped⟩ := restoreBp_done u v after live rearmed
        have live' : v.process = .stopped v.sdb.pid (after.restored u.sdb.preAddr) := by
          rw [process',sdb']; rfl
        simp only [bind_run,getRegs_live live',andThen_done,sdb] at ok
        rw [sdb] at sdb' mapped live'
        rw [statuses] at statuses'
        cases listed : s.sdb.addrList[(after.restored s.sdb.preAddr).regs.rip-1]? with
        | some value =>
          simp only [listed] at ok
          obtain ⟨sdb'',statuses'',process''⟩ := reportHit_done _ _ _ _ _ _ _ live' ok
          rw [sdb'',process'',sdb',statuses'']
          exact ⟨_,_,told,.hit s.sdb after value mapped listed,statuses'⟩
        | none =>
          have before : after.regs.rip-1 ∉ s.sdb.addrList := by
            rw [Std.ExtTreeMap.mem_iff_isSome_getElem?]
            simpa [Child.restored] using listed
          simp only [listed,ite_run] at ok
          split at ok
          next here =>
            cases fuel with
            | zero => simp [si] at ok
            | succ fuel =>
              have running' : v.sdb.state = .running := by rw [sdb']; exact running
              obtain ⟨x,ok,sdb'',_,statuses'',process'',_⟩ := si_done w fuel v t _ live' running' ok
              have clear : lifted v.sdb (after.restored s.sdb.preAddr).mem =
                  (after.restored s.sdb.preAddr).mem := by rw [sdb']; simp [lifted]
              rw [clear,← sdb''] at process''
              have running'' : x.sdb.state = .running := by rw [sdb'']; exact running'
              obtain ⟨report,heard,resumed,rest,final⟩ := ih fuel (by omega) x _ _ process'' running'' ok
              rw [sdb'',sdb'] at rest
              refine ⟨_,_,told,.nested s.sdb _ after mapped before here _ _ report _ heard resumed rest,?_⟩
              rw [final,statuses'',statuses',List.append_assoc]
              rfl
          next elsewhere =>
            simp only [pure_run,Outcome.done.injEq,true_and] at ok
            subst t
            rw [live',sdb',statuses']
            exact ⟨_,_,told,.pass s.sdb after mapped before elsewhere,rfl⟩
      · simp only [if_neg trap,debug_run,Outcome.done.injEq,true_and] at ok
        subst t
        simp only [say_sdb,say_process,say_statuses,process,sdb]
        exact ⟨_,_,told,.other s.sdb signal after trap,statuses⟩

/-! One command. -/

def Command.request : Command → Option Request
  | .si => some .singlestep
  | .cont => some .cont
  | .run => some .cont
  | _ => none

def SDB.insert (d : SDB) (addr code : Word) : SDB := {d with addrList := d.addrList.insert addr code}

def SDB.erase (d : SDB) (addr : Word) : SDB := {d with addrList := d.addrList.erase addr}

theorem unlisted_iff (list : AddrList) (a : Word) : list[a]? = none ↔ a ∉ list := by
  rw [Std.ExtTreeMap.mem_iff_isSome_getElem?]
  simp

theorem insert_lookup (d : SDB) (addr code a : Word) :
    (d.insert addr code).addrList[a]? = if addr = a then some code else d.addrList[a]? := by
  simp [SDB.insert,Std.ExtTreeMap.getElem?_insert]

theorem erase_lookup (d : SDB) (addr a : Word) :
    (d.erase addr).addrList[a]? = if addr = a then none else d.addrList[a]? := by
  simp [SDB.erase,Std.ExtTreeMap.getElem?_erase]

/-- What a command does to a stopped child and to the fields: nothing, one change
of list, memory or registers, or a resumption that settles. -/
inductive Effect (w : World) (clock : Nat) (d : SDB) (c : Child) :
    Command → SDB → Process → List Report → Prop
  | quiet (command : Command) : Effect w clock d c command d (.stopped d.pid c) []
  | insert (addr code : Word) (inside : d.inText addr = true) (fresh : addr ∉ d.addrList)
      (found : fetch c.mem addr = some code) :
      Effect w clock d c (.break addr) (d.insert addr code)
        (.stopped d.pid {c with mem := Function.update c.mem addr (some 0xcc)}) []
  | erase (id : Int) (addr value : Word) (valid : 0 ≤ id)
      (found : d.addrList.toList[id.toNat]? = some (addr,value)) (mapped : Mapped c.mem addr) :
      Effect w clock d c (.delete id) (d.erase addr)
        (.stopped d.pid {c with mem := overwrite c.mem addr fun i => some (byteAt value i)}) []
  | setRip (val : Word) :
      Effect w clock d c (.set "rip" val) {d with preAddr := 0,preVal := 0}
        (.stopped d.pid (c.withRip val)) []
  | setOther (regName : String) (val : Word) (regs : Registers) (differs : regName ≠ "rip")
      (named : setReg c.regs val regName = some regs) :
      Effect w clock d c (.set regName val) d (.stopped d.pid {c with regs := regs}) []
  | resume (command : Command) (request : Request) (lets : command.request = some request)
      (mapped : d.preAddr ≠ 0 → Mapped c.mem d.preAddr) (time : Nat) (report : Report)
      (told : w.resume time clock request {c with mem := lifted d c.mem} = some report)
      (e : SDB) (p : Process) (heard : List Report) (settles : Settles w d report e p heard) :
      Effect w clock d c command e p heard

def Affects (w : World) (s : Session) (c : Child) (command : Command) (t : Session) : Prop :=
  ∃ heard, Effect w s.clock s.sdb c command t.sdb t.process heard ∧
    t.statuses = s.statuses ++ heard.map Report.status

theorem Unchanged.affects {s t : Session} {c : Child} (same : Unchanged s t)
    (live : s.process = .stopped s.sdb.pid c) (w : World) (command : Command) :
    Affects w s c command t := by
  refine ⟨[],?_,by rw [same.statuses,List.map_nil,List.append_nil]⟩
  rw [same.sdb,same.process,live]
  exact .quiet command

theorem cont_affects (w : World) (fuel : Nat) (s t : Session) (c : Child) (command : Command)
    (lets : command.request = some .cont)
    (live : s.process = .stopped s.sdb.pid c) (running : s.sdb.state = .running)
    (ok : (cont w fuel).run s = .done () t) : Affects w s c command t := by
  simp only [cont,bind_run,read_run,andThen_done,running,ne_eq,not_true_eq_false,if_false] at ok
  obtain ⟨_,u,lift,ok⟩ := bind_done _ _ _ _ _ ok
  obtain ⟨sdb,clock,statuses,process,mapped⟩ := liftTrap_done _ _ _ _ live lift
  rw [← sdb] at process
  simp only [bind_run,letRun_live process,andThen_done,if_true] at ok
  obtain ⟨report,heard,told,settles,final⟩ :=
    checkProcess_settles w fuel _ t .cont _ rfl (by simpa [sdb] using running) ok
  simp only [sdb,clock,statuses] at told settles final
  exact ⟨heard,.resume command .cont lets mapped fuel report told _ _ _ settles,final⟩

theorem si_affects (w : World) (fuel : Nat) (s t : Session) (c : Child)
    (live : s.process = .stopped s.sdb.pid c) (running : s.sdb.state = .running)
    (ok : (si w fuel).run s = .done () t) : Affects w s c .si t := by
  cases fuel with
  | zero => simp [si] at ok
  | succ fuel =>
    obtain ⟨u,ok,sdb,clock,statuses,process,mapped⟩ := si_done w fuel s t c live running ok
    rw [← sdb] at process
    obtain ⟨report,heard,told,settles,final⟩ := checkProcess_settles w fuel u t _ _ process
      (by rw [sdb]; exact running) ok
    rw [sdb] at told settles
    rw [clock] at told
    rw [statuses] at final
    exact ⟨heard,.resume .si .singlestep rfl mapped fuel report told _ _ _ settles,final⟩

section Lists
variable {s : Session} {c : Child}

theorem setBreak_fresh (live : s.process = .stopped s.sdb.pid c) (running : s.sdb.state = .running)
    (addr code : Word) (inside : s.sdb.inText addr = true) (fresh : addr ∉ s.sdb.addrList)
    (found : fetch c.mem addr = some code) :
    (setBreak addr).run s = .done () {s with
      sdb := s.sdb.insert addr code
      process := .stopped s.sdb.pid {c with mem := Function.update c.mem addr (some 0xcc)}} := by
  simp only [setBreak,bind_run,read_run,andThen_done,running,ne_eq,not_true_eq_false,if_false,inside,
    Bool.not_true,Bool.false_eq_true,fresh,peekText_live live,found,Option.getD_some,onSdb_run]
  rw [pokeText_mapped (c := c) ?stopped _ _ (fetch_bytes _ _ _ found).1]
  case stopped => exact live
  rw [overwrite_trap _ _ _ found]
  simp [SDB.insert,Session.withChild,running]

theorem setBreak_unmapped (live : s.process = .stopped s.sdb.pid c) (running : s.sdb.state = .running)
    (addr : Word) (inside : s.sdb.inText addr = true) (fresh : addr ∉ s.sdb.addrList)
    (unmapped : ¬ Mapped c.mem addr) (t : Session) : (setBreak addr).run s ≠ .done () t := by
  simp only [setBreak,bind_run,read_run,andThen_done,running,ne_eq,not_true_eq_false,if_false,inside,
    Bool.not_true,Bool.false_eq_true,fresh,peekText_live live,onSdb_run]
  rw [pokeText_unmapped (c := c) ?stopped _ _ unmapped]
  case stopped => exact live
  simp

theorem setBreak_listed (running : s.sdb.state = .running) (addr : Word)
    (inside : s.sdb.inText addr = true) (listed : addr ∈ s.sdb.addrList) :
    (setBreak addr).run s = .done () s := by
  simp [setBreak,running,inside,listed]

theorem del_listed (live : s.process = .stopped s.sdb.pid c) (running : s.sdb.state = .running) (id : Nat)
    (addr value : Word) (found : s.sdb.addrList.toList[id]? = some (addr,value)) (mapped : Mapped c.mem addr) :
    (del id).run s = .done () ({s with
      sdb := s.sdb.erase addr
      process := .stopped s.sdb.pid {c with mem := overwrite c.mem addr fun i => some (byteAt value i)}}.say
        (.debug s!"breakpoint {(id : Int)} deleted.")) := by
  have positive : ¬ (id : Int) < 0 := by omega
  simp only [del,bind_run,read_run,andThen_done,running,ne_eq,not_true_eq_false,if_false,positive,
    Int.toNat_natCast,found,pokeText_mapped live _ _ mapped]
  rfl

theorem del_unmapped (live : s.process = .stopped s.sdb.pid c) (running : s.sdb.state = .running) (id : Nat)
    (addr value : Word) (found : s.sdb.addrList.toList[id]? = some (addr,value))
    (unmapped : ¬ Mapped c.mem addr) (t : Session) : (del id).run s ≠ .done () t := by
  have positive : ¬ (id : Int) < 0 := by omega
  simp [del,running,positive,found,pokeText_unmapped live _ _ unmapped]

end Lists

theorem setBreak_affects (w : World) (addr : Word) (s t : Session) (c : Child)
    (live : s.process = .stopped s.sdb.pid c) (running : s.sdb.state = .running)
    (ok : (setBreak addr).run s = .done () t) : Affects w s c (.break addr) t := by
  by_cases inside : s.sdb.inText addr = true
  · by_cases listed : addr ∈ s.sdb.addrList
    · rw [setBreak_listed running addr inside listed] at ok
      cases ok
      exact (Unchanged.refl s).affects live w (.break addr)
    by_cases mapped : Mapped c.mem addr
    · obtain ⟨code,found,_⟩ := fetch_mapped _ _ mapped
      rw [setBreak_fresh live running addr code inside listed found] at ok
      cases ok
      exact ⟨[],.insert addr code inside listed found,(List.append_nil _).symm⟩
    · exact absurd ok (setBreak_unmapped live running addr inside listed mapped t)
  · simp only [setBreak,bind_run,read_run,andThen_done,running,ne_eq,not_true_eq_false,if_false,inside,
      Bool.not_false,if_true] at ok
    exact (quiet_debug _ s () t ok).affects live w (.break addr)

theorem del_affects (w : World) (id : Int) (s t : Session) (c : Child)
    (live : s.process = .stopped s.sdb.pid c) (running : s.sdb.state = .running)
    (ok : (del id).run s = .done () t) : Affects w s c (.delete id) t := by
  have print (text : String) (shown : (debug text).run s = .done () t) :=
    (quiet_debug text s () t shown).affects live w (.delete id)
  by_cases negative : id < 0
  · simp only [del,bind_run,read_run,andThen_done,running,ne_eq,not_true_eq_false,if_false,negative,if_true] at ok
    exact print _ ok
  obtain ⟨id,rfl⟩ := Int.eq_ofNat_of_zero_le (by omega : 0 ≤ id)
  cases found : s.sdb.addrList.toList[id]? with
  | none =>
    simp only [del,bind_run,read_run,andThen_done,running,ne_eq,not_true_eq_false,if_false,negative,
      Int.toNat_natCast,found] at ok
    exact print _ ok
  | some entry =>
    by_cases mapped : Mapped c.mem entry.1
    · rw [del_listed live running id entry.1 entry.2 found mapped] at ok
      cases ok
      exact ⟨[],.erase id entry.1 entry.2 (by omega) found mapped,(List.append_nil _).symm⟩
    · exact absurd ok (del_unmapped live running id entry.1 entry.2 found mapped t)

theorem setReg_rip (regs : Registers) (val : Word) :
    setReg regs val "rip" = some {regs with rip := val} := rfl

theorem set_affects (w : World) (regName : String) (val : Word) (s t : Session) (c : Child)
    (live : s.process = .stopped s.sdb.pid c) (ok : (set regName val).run s = .done () t) :
    Affects w s c (.set regName val) t := by
  simp only [set,bind_run,getRegs_live live,andThen_done] at ok
  cases named : setReg c.regs val regName with
  | none =>
    simp only [named] at ok
    exact (quiet_pure () s () t ok).affects live w (.set regName val)
  | some regs =>
    simp only [named,bind_run,ite_run] at ok
    by_cases rip : regName = "rip"
    · subst rip
      simp only [if_true,onSdb_run,andThen_done,bind_run] at ok
      rw [setRegs_live (c := c) ?stopped] at ok
      case stopped => exact live
      simp only [andThen_done,if_true,pure_run,Outcome.done.injEq,true_and] at ok
      subst t
      cases Option.some.inj (named.symm.trans (setReg_rip c.regs val))
      exact ⟨[],.setRip val,(List.append_nil _).symm⟩
    · simp only [if_neg rip,pure_run,andThen_done,setRegs_live live,if_true,
        Outcome.done.injEq,true_and] at ok
      subst t
      exact ⟨[],.setOther regName val regs rip named,(List.append_nil _).symm⟩

theorem quit_never (s t : Session) : quit.run s ≠ .done () t := by
  simp only [quit,bind_run,read_run,andThen_done,ite_run,modify_run]
  split <;> simp

/-- The inversion lemma for commands on a stopped child. -/
theorem perform_affects (w : World) (fuel : Nat) (command : Command) (s t : Session) (c : Child)
    (live : s.process = .stopped s.sdb.pid c) (running : s.sdb.state = .running)
    (ok : (command.perform w fuel).run s = .done () t) : Affects w s c command t := by
  have silent (same : Unchanged s t) := same.affects live w command
  cases command with
  | «break» addr => exact setBreak_affects w addr s t c live running ok
  | cont => exact cont_affects w fuel s t c _ rfl live running ok
  | delete id => exact del_affects w id s t c live running ok
  | disasm addr => exact silent (quiet_disasm _ _ _ _ _ _ ok)
  | dump addr => exact silent (quiet_dump _ _ _ _ ok)
  | exit => exact absurd ok (quit_never s t)
  | get regName => exact silent (quiet_get _ _ _ _ ok)
  | getregs => exact silent (quiet_getregs _ _ _ ok)
  | help => exact silent (quiet_help _ _ _ ok)
  | list => exact silent (quiet_list _ _ _ ok)
  | load fileName =>
    obtain ⟨process,clock,statuses,_,_,_,_,kept | fresh⟩ := load_cases w fileName s t ok
    · exact silent ⟨kept.2,process,clock,statuses⟩
    · rw [running] at fresh
      exact absurd fresh.1 (by decide)
  | run =>
    simp only [Command.perform,run,bind_run,read_run,andThen_done,running,debug_run] at ok
    exact cont_affects w fuel (s.say _) t c _ rfl live running ok
  | vmmap => exact silent (quiet_vmmap _ _ _ _ ok)
  | set regName val => exact set_affects w regName val s t c live ok
  | si => exact si_affects w fuel s t c live running ok
  | start =>
    simp only [Command.perform,start,bind_run,read_run,andThen_done,running,ne_eq,reduceCtorEq,
      not_false_eq_true,if_true] at ok
    exact silent (quiet_debug _ s () t ok)

/-! Starting a child. -/

def rearmAll (preAddr : Word) (keys : List Word) (m : Memory) : Option Memory :=
  keys.foldlM (fun m addr => store m addr (trapWord ((fetch m preAddr).getD (-1)))) m

theorem rearm_done (addr : Word) (s t : Session) (c : Child) (live : s.process = .stopped s.sdb.pid c)
    (ok : (rearm addr).run s = .done () t) :
    ∃ m, store c.mem addr (trapWord ((fetch c.mem s.sdb.preAddr).getD (-1))) = some m ∧
      t.sdb = s.sdb ∧ t.statuses = s.statuses ∧ t.process = .stopped s.sdb.pid {c with mem := m} := by
  simp only [rearm,bind_run,read_run,andThen_done,peekText_live live] at ok
  by_cases mapped : Mapped c.mem addr
  · simp only [pokeText_mapped live _ _ mapped,andThen_done,if_true,pure_run,
      Outcome.done.injEq,true_and] at ok
    subst t
    exact ⟨_,store_mapped _ _ _ mapped,rfl,rfl,rfl⟩
  · simp [pokeText_unmapped live _ _ mapped] at ok

theorem rearmAll_done (keys : List Word) (s t : Session) (c : Child)
    (live : s.process = .stopped s.sdb.pid c) (ok : (keys.forM rearm).run s = .done () t) :
    ∃ m, rearmAll s.sdb.preAddr keys c.mem = some m ∧
      t.sdb = s.sdb ∧ t.statuses = s.statuses ∧ t.process = .stopped s.sdb.pid {c with mem := m} := by
  induction keys generalizing s c with
  | nil =>
    cases ok
    exact ⟨c.mem,rfl,rfl,rfl,live⟩
  | cons addr keys ih =>
    obtain ⟨_,u,begun,ok⟩ := bind_done _ _ _ _ _ ok
    obtain ⟨m,written,sdb,statuses,process⟩ := rearm_done addr s u c live begun
    rw [← sdb] at process
    obtain ⟨after,rest,sdb',statuses',process'⟩ := ih u _ process ok
    refine ⟨after,?_,sdb'.trans sdb,statuses'.trans statuses,by rw [process',sdb]⟩
    rw [sdb] at rest
    rw [rearmAll,List.foldlM_cons,written]
    exact rest

theorem forM_fst (entries : List (Word × Word)) :
    (entries.forM fun entry => rearm entry.1) = (entries.map Prod.fst).forM rearm := by
  induction entries with
  | nil => rfl
  | cons entry entries ih =>
    change (rearm entry.1 >>= fun _ => entries.forM fun entry => rearm entry.1) =
      (rearm entry.1 >>= fun _ => (entries.map Prod.fst).forM rearm)
    rw [ih]

def SDB.afterStart (d : SDB) (pid : ℕ+) : SDB := {d with pid := pid,state := .running}

theorem start_done (w : World) (s t : Session) (ok : (start w).run s = .done () t) :
    s.sdb.state ≠ .loaded ∧ Unchanged s t ∨
      s.sdb.state = .loaded ∧ ∃ pid c m, w.exec s.sdb.programName = some c ∧
        rearmAll s.sdb.preAddr (s.sdb.addrList.toList.map Prod.fst) c.mem = some m ∧
        t.sdb = s.sdb.afterStart pid ∧ t.statuses = s.statuses ∧
        t.process = .stopped pid {c with mem := m} := by
  simp only [start,bind_run,read_run,andThen_done,ite_run] at ok
  split at ok
  next other => exact .inl ⟨other,quiet_debug _ s () t ok⟩
  next loaded =>
    refine .inr ⟨by simpa using loaded,?_⟩
    cases forked : w.fork s.clock with
    | none => simp [forked] at ok
    | some pid =>
      simp only [forked,bind_run,spawn,modify_run,andThen_done,read_run] at ok
      cases spawned : w.exec s.sdb.programName with
      | none =>
        simp [spawned,setOptions,Session.tracee] at ok
      | some c =>
        simp only [spawned,modify_run,andThen_done,setOptions,Session.tracee,if_true,Option.isSome_some,
          bind_run,debug_run,onSdb_run,read_run,forM_fst] at ok
        obtain ⟨m,armed,sdb,statuses,process⟩ := rearmAll_done _ _ t c rfl ok
        exact ⟨pid,c,m,rfl,armed,sdb,statuses,process⟩

end Unixprog.Sdb
