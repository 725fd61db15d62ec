import Unixprog.Sdb.Recursion

/-! How deep si and check_process call each other over one command, and what
Capstone reads at its end: both told from the stops of the child. -/
namespace Unixprog.Sdb
open Words Runs

/-- The world up to its clock `k`: let run from then on, the child exits. -/
def World.until (w : World) (k : Nat) : World := {w with
  resume := fun fuel clock request c => if clock < k then w.resume fuel clock request c else some (.ended (.exited 0))
  steady := by
    intro fuel more clock request c report longer told
    split at told
    next early =>
      rw [if_pos early]
      exact w.steady fuel more clock request c report longer told
    next late => rwa [if_neg late]}

/-- The stops by SIGTRAP that one call of si or cont goes on from, the `n`th behind `n`
stops at listed addresses: the child as check_process has it when it looks at rip. -/
inductive Stops (w : World) (d : SDB) (clock : Nat) (request : Request) (c : Child) : Nat → Child → Prop
  | first {time : Nat} {after : Child} (lifts : d.preAddr ≠ 0 → Mapped c.mem d.preAddr)
      (told : w.resume time clock request {c with mem := lifted d c.mem} = some (.stopped SIGTRAP after))
      (mapped : d.preAddr ≠ 0 → Mapped after.mem d.preAddr) : Stops w d clock request c 0 (after.restored d.preAddr)
  | next {n time : Nat} {last after : Child} (before : Stops w d clock request c n last) (nests : Nests d last)
      (told : w.resume time (clock+n+1) .singlestep last = some (.stopped SIGTRAP after)) :
      Stops w d clock request c (n+1) after

/-- The bytes that Capstone looks at for `len` instructions lie in the image or where something is mapped. -/
def Readable (w : World) (d : SDB) (addr : Word) (len : Nat) : Prop :=
  let offset := shOffset d.sectHeader+addr-shAddr d.sectHeader
  d.inText addr = true → ∀ i < w.csReads (codeBytes w d offset) addr len,
    offset.toNat+i < (d.codeText.getD []).length ∨ w.mapped (offset.toNat+i) = true

/-- No stop leads to a call of si that the stack has no room for, or to the report of a
breakpoint whose instruction cannot be read. -/
structure Bounded (w : World) (d : SDB) (clock : Nat) (request : Request) (c : Child) : Prop where
  shallow : ∀ n last, Stops w d clock request c n last → Nests d last → n < w.stack
  reads : ∀ n last, Stops w d clock request c n last → last.regs.rip-1 ∈ d.addrList →
    Readable w d (last.regs.rip-1) 1

theorem readable_congr {w : World} {d e : SDB} {addr : Word} {len : Nat} (header : e.sectHeader = d.sectHeader)
    (text : e.codeText = d.codeText) (size : e.codeSize = d.codeSize) : Readable w e addr len ↔ Readable w d addr len := by
  simp only [Readable,SDB.inText,codeBytes,header,text,size]

section Stops
variable {w : World} {d : SDB} {clock n k : Nat} {request : Request} {c last : Child}

theorem until_early (early : clock < k) (fuel : Nat) :
    (w.until k).resume fuel clock request c = w.resume fuel clock request c := if_pos early

theorem until_late (late : k ≤ clock) (fuel : Nat) :
    (w.until k).resume fuel clock request c = some (.ended (.exited 0)) := if_neg (Nat.not_lt.mpr late)

theorem until_stopped {fuel signal : Nat} {after : Child}
    (told : (w.until k).resume fuel clock request c = some (.stopped signal after)) :
    w.resume fuel clock request c = some (.stopped signal after) := by
  simp only [World.until] at told
  split at told
  next => exact told
  next => cases told

/-- The session in which check_process looks at rip after the `n`th of its stops. -/
structure AtStop (s : Session) (n : Nat) (last : Child) (u : Session) : Prop where
  sdb : u.sdb = {s.sdb with preAddr := 0}
  live : u.process = .stopped u.sdb.pid last
  clock : u.clock = s.clock+n+1
  statuses : u.statuses.length = s.statuses.length+n+1
  out : ∃ rows, u.out = s.out ++ rows ∧ .breakpointAt ∉ rows

/-- What check_process does there. -/
def goesOn (w : World) (fuel : Nat) (last : Child) (u : Session) : Outcome Unit :=
  match u.sdb.addrList[last.regs.rip-1]? with
  | some value => (reportHit w last.regs (last.regs.rip-1) value).run u
  | none => if last.regs.rip ∈ u.sdb.addrList then (si w fuel).run u else .done () u

theorem goesOn_nests {u : Session} (fuel : Nat) (nests : Nests u.sdb last) : goesOn w fuel last u = (si w fuel).run u := by
  rw [goesOn,(unlisted_iff _ _).mpr nests.1]
  exact if_pos nests.2

theorem goesOn_hit {u : Session} {value : Word} (fuel : Nat) (listed : u.sdb.addrList[last.regs.rip-1]? = some value) :
    goesOn w fuel last u = (reportHit w last.regs (last.regs.rip-1) value).run u := by
  rw [goesOn,listed]

section Session
variable {s : Session} {m : Nat}

/-- Up to its `n`th stop a call of check_process is the same in every world that tells
of the stops before `k`. -/
theorem stops_at (running : s.sdb.state = .running) (stops : Stops w s.sdb s.clock request c n last)
    (early : s.clock+n < k) : ∃ u least, AtStop s n last u ∧ ∀ fuel, least ≤ fuel →
      (checkProcess (w.until k) (fuel+2*n+1)).run (s.resuming request c) = goesOn (w.until k) fuel last u := by
  induction stops with
  | @first time after lifts told mapped =>
    refine ⟨(s.resuming request c).caught after,time,⟨rfl,rfl,rfl,?_,s.sdb.resetRows,rfl,resetRows_plain _⟩,?_⟩
    · simp [Session.caught,Session.resuming]
    · intro fuel enough
      have told := w.steady time (fuel+1) _ _ _ _ (by omega) told
      rw [← until_early (by omega : s.clock < k)] at told
      exact checkProcess_trapped (s := s.resuming request c) fuel rfl told mapped
  | @next n time last after before nests told ih =>
    obtain ⟨u,least,here,same⟩ := ih (by omega)
    have clear : u.sdb.preAddr = 0 := by rw [here.sdb]
    have listed : u.sdb.addrList = s.sdb.addrList := by rw [here.sdb]
    have unlifted : u.resuming .singlestep last = {u with process := .resumed u.sdb.pid .singlestep last} := by
      simp [Session.resuming,lifted,clear]
    obtain ⟨rows,out,plain⟩ := here.out
    refine ⟨Session.caught {u with process := .resumed u.sdb.pid .singlestep last} after,max least time,
      ⟨?_,?_,?_,?_,rows,?_,plain⟩,?_⟩
    · simp [Session.caught,here.sdb]
    · simp [Session.caught,Child.restored,restored,clear]
    · simp only [Session.caught,here.clock]
      omega
    · simp only [Session.caught,List.length_append,List.length_singleton,here.statuses]
      omega
    · simp [Session.caught,SDB.resetRows,clear,out]
    · intro fuel enough
      have told := w.steady time (fuel+1) _ _ _ _ (by omega) told
      rw [← until_early (by omega : s.clock+n+1 < k),← here.clock] at told
      have first := same (fuel+2) (by omega)
      rw [goesOn_nests (u := u) (fuel+2) (by unfold Nests; rwa [listed]),
        si_lets (w.until k) (fuel+1) here.live (by rw [here.sdb]; exact running) (fun pending => absurd clear pending),
        unlifted] at first
      rw [show fuel+2*(n+1)+1 = fuel+2+2*n+1 by omega,first]
      exact checkProcess_trapped (s := {u with process := .resumed u.sdb.pid .singlestep last}) fuel rfl told
        fun pending => absurd clear pending

/-- check_process waits for the `m`th stop of the call that began at `s`. -/
structure Underway (w : World) (s : Session) (request : Request) (c : Child) (m : Nat) (u : Session) : Prop where
  sdb : u.sdb = s.sdb ∨ u.sdb = {s.sdb with preAddr := 0}
  waits : ∃ pending child, u.process = .resumed u.sdb.pid pending child ∧ ∀ time after,
    w.resume time u.clock pending child = some (.stopped SIGTRAP after) →
      (u.sdb.preAddr ≠ 0 → Mapped after.mem u.sdb.preAddr) →
        Stops w s.sdb s.clock request c m (after.restored u.sdb.preAddr)
  clock : u.clock = s.clock+m
  statuses : u.statuses.length = s.statuses.length+m
  out : ∃ rows, u.out = s.out ++ rows ∧ .breakpointAt ∉ rows

/-- What a call that returns leaves: no more statuses than the stack has room for, and a
breakpoint reported only if its instruction could be read. -/
structure Contained (w : World) (s t : Session) : Prop where
  shallow : t.statuses.length ≤ s.statuses.length+1+w.stack
  reads : .breakpointAt ∈ t.out.drop s.out.length → Readable w t.sdb t.sdb.preAddr 1

theorem underway_first (lifts : s.sdb.preAddr ≠ 0 → Mapped c.mem s.sdb.preAddr) {rows : List Message}
    (plain : .breakpointAt ∉ rows) : Underway w s request c 0 (Session.resuming {s with out := s.out ++ rows} request c) :=
  ⟨.inl rfl,⟨request,_,rfl,fun _ _ told mapped => .first lifts told mapped⟩,rfl,rfl,rows,rfl,plain⟩

theorem Underway.state {u : Session} (underway : Underway w s request c m u) : u.sdb.state = s.sdb.state := by
  obtain same | same := underway.sdb <;> rw [same]

theorem Underway.addrList {u : Session} (underway : Underway w s request c m u) : u.sdb.addrList = s.sdb.addrList := by
  obtain same | same := underway.sdb <;> rw [same]

theorem Underway.cleared {u : Session} (underway : Underway w s request c m u) :
    {u.sdb with preAddr := 0} = {s.sdb with preAddr := 0} := by
  obtain same | same := underway.sdb <;> rw [same]

/-- A call that ends with its `m`th status and a message other than the report of a breakpoint. -/
theorem Underway.ends {u t : Session} (underway : Underway w s request c m u) (room : m ≤ w.stack) {status : Status}
    (messages : List Message) (plain : .breakpointAt ∉ messages) (statuses : t.statuses = u.statuses ++ [status])
    (out : t.out = u.out ++ messages) : Contained w s t := by
  refine ⟨?_,fun reported => ?_⟩
  · rw [statuses,List.length_append,List.length_singleton,underway.statuses]
    omega
  · obtain ⟨rows,before,clean⟩ := underway.out
    rw [out,before,List.append_assoc,List.drop_left,List.mem_append] at reported
    exact absurd reported (by simp [clean,plain])

/-- A nested si waits for one stop more. -/
theorem Underway.nests {u : Session} {after : Child} (underway : Underway w s request c m u)
    (stops : Stops w s.sdb s.clock request c m (after.restored u.sdb.preAddr)) (nests : Nests s.sdb after) :
    Underway w s request c (m+1) (u.nesting after) := by
  obtain ⟨rows,before,clean⟩ := underway.out
  refine ⟨.inr underway.cleared,⟨.singlestep,after.restored u.sdb.preAddr,rfl,fun time later told _ => ?_⟩,?_,?_,
    rows ++ u.sdb.resetRows,?_,?_⟩
  · have same : later.restored (u.nesting after).sdb.preAddr = later := by
      simp [Child.restored,restored,Session.nesting,Session.caught]
    have clock : (u.nesting after).clock = s.clock+m+1 := by simp [Session.nesting,Session.caught,underway.clock]
    rw [same]
    rw [clock] at told
    exact .next stops nests told
  · simp only [Session.nesting,Session.caught,underway.clock]
    omega
  · simp only [Session.nesting,Session.caught,List.length_append,List.length_singleton,underway.statuses]
    omega
  · simp [Session.nesting,Session.caught,before]
  · simp [clean,resetRows_plain]

/-- The report of a breakpoint ends the call. -/
theorem Underway.hits {u t : Session} {after : Child} {value : Word} (underway : Underway w s request c m u)
    (opens : w.csOpen = true) (bounded : Bounded w s.sdb s.clock request c) (room : m ≤ w.stack)
    (stops : Stops w s.sdb s.clock request c m (after.restored u.sdb.preAddr))
    (listed : s.sdb.addrList[after.regs.rip-1]? = some value)
    (ok : (reportHit (w.until k) after.regs (after.regs.rip-1) value).run (u.caught after) = .done () t) :
    Contained w s t := by
  obtain ⟨rows,reported⟩ := reportHit_open (w := w.until k) (s := u.caught after) (c := after.restored u.sdb.preAddr)
    (after.regs.rip-1) value opens rfl
  replace ok := reported.symm.trans ok
  cases ok
  have member : after.regs.rip-1 ∈ s.sdb.addrList := by
    rw [Std.ExtTreeMap.mem_iff_isSome_getElem?,listed]
    rfl
  have fields : (u.caught after).sdb = {s.sdb with preAddr := 0} := underway.cleared
  refine ⟨?_,fun _ => (readable_congr ?_ ?_ ?_).mpr (bounded.reads m (after.restored u.sdb.preAddr) stops member)⟩
  · simp only [Session.caught,List.length_append,List.length_singleton,underway.statuses]
    omega
  all_goals simp [SDB.afterHit,fields]

theorem underway_contained (opens : w.csOpen = true) (running : s.sdb.state = .running)
    (bounded : Bounded w s.sdb s.clock request c) {fuel : Nat} {u t : Session} (room : m ≤ w.stack)
    (underway : Underway w s request c m u) (ok : (checkProcess (w.until k) fuel).run u = .done () t) :
    Contained w s t := by
  -- Induction on the nesting: every nested si has one unit of room less, and the bound on the stops gives it.
  induction fuel using Nat.strong_induction_on generalizing m u with
  | _ fuel ih =>
  cases fuel with
  | zero => simp [checkProcess] at ok
  | succ fuel =>
    obtain ⟨pending,child,process,stops⟩ := underway.waits
    cases told : (w.until k).resume (fuel+1) u.clock pending child with
    | none =>
      rw [checkProcess_waits (fuel+1) process told] at ok
      cases ok
    | some report =>
      cases report with
      | ended ending =>
        cases ending with
        | exited code =>
          obtain ⟨text,returned⟩ := checkProcess_exits fuel code process told
          rw [returned] at ok
          cases ok
          exact underway.ends room [.debug text] (by simp) rfl rfl
        | signaled signal =>
          obtain ⟨text,returned⟩ := checkProcess_killed fuel signal process told
          rw [returned] at ok
          cases ok
          exact underway.ends room [.debug text] (by simp) rfl rfl
      | stopped signal after =>
        by_cases trap : signal = SIGTRAP
        · subst trap
          by_cases mapped : u.sdb.preAddr ≠ 0 → Mapped after.mem u.sdb.preAddr
          · have here := stops (fuel+1) after (until_stopped told) mapped
            rw [checkProcess_trapped fuel process told mapped,underway.addrList] at ok
            cases listed : s.sdb.addrList[after.regs.rip-1]? with
            | some value =>
              rw [listed] at ok
              exact underway.hits opens bounded room here listed ok
            | none =>
              rw [listed] at ok
              dsimp only at ok
              split at ok
              next again =>
                have nests : Nests s.sdb after := ⟨(unlisted_iff _ _).mp listed,again⟩
                cases fuel with
                | zero => simp [si] at ok
                | succ fuel =>
                  rw [caught_lets (by rw [underway.state]; exact running)] at ok
                  exact ih fuel (by omega) (bounded.shallow m _ here nests) (underway.nests here nests) ok
              next elsewhere =>
                cases ok
                exact underway.ends room u.sdb.resetRows (resetRows_plain _) rfl rfl
          · obtain ⟨pending,unmapped⟩ := Classical.not_imp.mp mapped
            obtain ⟨code,v,fails⟩ := checkProcess_unmapped fuel process told pending unmapped
            rw [fails] at ok
            cases ok
        · obtain ⟨text,returned⟩ := checkProcess_signalled fuel signal trap process told
          rw [returned] at ok
          cases ok
          exact underway.ends room [.debug text] (by simp) rfl rfl

theorem resumes_contained (opens : w.csOpen = true) (running : s.sdb.state = .running)
    (live : s.process = .stopped s.sdb.pid c) (bounded : Bounded w s.sdb s.clock request c) (rows : List Message)
    (plain : .breakpointAt ∉ rows) {fuel : Nat} {t : Session}
    (ok : (resumes (w.until k) request fuel).run {s with out := s.out ++ rows} = .done () t) : Contained w s t := by
  have lifts : s.sdb.preAddr ≠ 0 → Mapped c.mem s.sdb.preAddr :=
    resumes_lifts (s := {s with out := s.out ++ rows}) live running ok
  have begins : Underway w s request c 0 (Session.resuming {s with out := s.out ++ rows} request c) :=
    underway_first lifts plain
  cases request with
  | cont =>
    have lets := cont_lets (s := {s with out := s.out ++ rows}) (w.until k) fuel live running lifts
    rw [resumes,lets] at ok
    exact underway_contained opens running bounded (Nat.zero_le _) begins ok
  | singlestep =>
    cases fuel with
    | zero => simp [resumes,si] at ok
    | succ fuel =>
      have lets := si_lets (s := {s with out := s.out ++ rows}) (w.until k) fuel live running lifts
      rw [resumes,lets] at ok
      exact underway_contained opens running bounded (Nat.zero_le _) begins ok

/-- Up to its `n`th stop a call of si or cont is the same in the world that ends after it. -/
theorem resumes_at (running : s.sdb.state = .running) (live : s.process = .stopped s.sdb.pid c)
    (stops : Stops w s.sdb s.clock request c n last) : ∃ u fuel rest, AtStop s n last u ∧
      (resumes (w.until (s.clock+n+1)) request (fuel+1)).run s = goesOn (w.until (s.clock+n+1)) (rest+2) last u := by
  have lifts : s.sdb.preAddr ≠ 0 → Mapped c.mem s.sdb.preAddr := by
    clear running
    induction stops with
    | first lifts told mapped => exact lifts
    | next before nests told ih => exact ih
  obtain ⟨u,least,here,same⟩ := stops_at (k := s.clock+n+1) running stops (Nat.lt_succ_self _)
  obtain ⟨rest,more,lets⟩ := resumes_lets (w := w.until (s.clock+n+1)) live running lifts request (least+2*n+3)
  refine ⟨u,least+2*n+3,rest-2*n-3,here,?_⟩
  rw [lets,← same (rest-2*n-3+2) (by omega),show rest-2*n-3+2+2*n+1 = rest by omega]

/-- Where every call that returns is contained, however long the child goes on, the stops
are bounded. -/
theorem contained_bounded (opens : w.csOpen = true) (running : s.sdb.state = .running)
    (live : s.process = .stopped s.sdb.pid c)
    (contained : ∀ k fuel t, (resumes (w.until k) request (fuel+1)).run s = .done () t → Contained w s t) :
    Bounded w s.sdb s.clock request c := by
  constructor
  case shallow =>
    intro n last stops nests
    obtain ⟨u,fuel,rest,here,same⟩ := resumes_at running live stops
    have clear : u.sdb.preAddr = 0 := by rw [here.sdb]
    have exits : (w.until (s.clock+n+1)).resume (rest+1) u.clock .singlestep {last with mem := lifted u.sdb last.mem} =
        some (.ended (.exited 0)) := until_late (by rw [here.clock]) _
    obtain ⟨text,returned⟩ := checkProcess_exits (s := u.resuming .singlestep last) rest 0 rfl exits
    rw [goesOn_nests (rest+2) (by rw [here.sdb]; exact nests),
      si_lets (w.until (s.clock+n+1)) (rest+1) here.live (by rw [here.sdb]; exact running)
        (fun pending => absurd clear pending),returned] at same
    have few := (contained _ _ _ same).shallow
    simp only [Session.resuming,List.length_append,List.length_singleton,here.statuses] at few
    omega
  case reads =>
    intro n last stops member
    obtain ⟨u,fuel,rest,here,same⟩ := resumes_at running live stops
    rw [Std.ExtTreeMap.mem_iff_isSome_getElem?,Option.isSome_iff_exists] at member
    obtain ⟨value,listed⟩ := member
    obtain ⟨rows,reported⟩ := reportHit_open (w := w.until (s.clock+n+1)) (last.regs.rip-1) value opens here.live
    rw [goesOn_hit (rest+2) (by rw [here.sdb]; exact listed),reported] at same
    obtain ⟨before,out,_⟩ := here.out
    have readable := (contained _ _ _ same).reads (by simp [out])
    refine (readable_congr ?_ ?_ ?_).mp readable <;> simp [SDB.afterHit,here.sdb]

end Session

end Stops

end Unixprog.Sdb
