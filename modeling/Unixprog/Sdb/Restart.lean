import Unixprog.Sdb.Overlay

/-! A restart against a fresh session: the re-arming loop of start against
set_break, for one set of breakpoints. -/
namespace Unixprog.Sdb
open Words Runs

def trapped (keys : List Word) (m : Memory) : Memory := fun x => if x ∈ keys then some 0xcc else m x

theorem trapped_nil (m : Memory) : trapped [] m = m := by
  funext x
  simp [trapped]

theorem trapped_cons (a : Word) (keys : List Word) (m : Memory) :
    trapped (a::keys) m = trapped keys (Function.update m a (some 0xcc)) := by
  funext x
  by_cases here : x = a
  · subst x
    simp [trapped]
  · simp [trapped,here]

/-- Setting distinct breakpoints one after the other: the word saved for each has
the traps of those before it. -/
theorem setBreaks_done (order : List Word) (s t : Session) (c : Child)
    (live : s.process = .stopped s.sdb.pid c) (running : s.sdb.state = .running)
    (inside : ∀ a ∈ order, s.sdb.inText a = true) (fresh : ∀ a ∈ order, a ∉ s.sdb.addrList)
    (distinct : order.Nodup) (ok : (order.forM setBreak).run s = .done () t) :
    ∃ list : AddrList, t.sdb = {s.sdb with addrList := list} ∧
      t.process = .stopped s.sdb.pid {c with mem := trapped order c.mem} ∧
      ∀ a, list[a]? =
        if a ∈ order then fetch (trapped (order.takeWhile (· ≠ a)) c.mem) a else s.sdb.addrList[a]? := by
  induction order generalizing s c with
  | nil =>
    cases ok
    exact ⟨t.sdb.addrList,rfl,live,fun a => rfl⟩
  | cons a order ih =>
    obtain ⟨_,u,begun,rest⟩ := bind_done _ _ _ _ _ ok
    have new := fresh a (.head _)
    have within := inside a (.head _)
    obtain ⟨apart,distinct⟩ := List.nodup_cons.mp distinct
    by_cases mapped : Mapped c.mem a
    · obtain ⟨code,found,_⟩ := fetch_mapped _ _ mapped
      rw [setBreak_fresh live running a code within new found] at begun
      have fields : u.sdb = s.sdb.insert a code := by cases begun; rfl
      have child : u.process = .stopped s.sdb.pid {c with mem := Function.update c.mem a (some 0xcc)} := by
        cases begun
        rfl
      have later (b : Word) (member : b ∈ order) : b ∉ u.sdb.addrList := by
        have old := fresh b (.tail _ member)
        have other : ¬ a = b := by
          rintro rfl
          exact apart member
        rw [fields]
        simp [SDB.insert,old,other]
      obtain ⟨list,sdb,process,lookup⟩ := ih u _ (by rw [child,fields]; rfl) (by rw [fields]; exact running)
        (fun b member => by rw [fields]; exact inside b (.tail _ member)) later distinct rest
      rw [fields] at sdb process lookup
      refine ⟨list,sdb,by rw [process,trapped_cons]; rfl,?_⟩
      intro b
      rw [lookup b,insert_lookup]
      by_cases here : a = b
      · subst b
        simp [apart,found,trapped_nil]
      · have other : b ≠ a := fun same => here same.symm
        simp [here,other,trapped_cons]
    · exact absurd begun (setBreak_unmapped live running a within new mapped u)

theorem script_breaks (w : World) (fuel : Nat) (order : List Word) :
    script w fuel (order.map .break) = order.forM setBreak := by
  induction order with
  | nil => rfl
  | cons a order ih =>
    change (setBreak a >>= fun _ => script w fuel (order.map .break)) = (setBreak a >>= fun _ => order.forM setBreak)
    rw [ih]

def SameDebuggee (s t : Session) : Prop :=
  (∃ c c', s.process = .stopped s.sdb.pid c ∧ t.process = .stopped t.sdb.pid c' ∧ c.mem = c'.mem) ∧
    s.sdb.addrList = t.sdb.addrList ∧ s.sdb.preAddr = t.sdb.preAddr ∧ s.sdb.preVal = t.sdb.preVal

/-- The program has 0xff wherever the re-arming loop writes beside a trap, and the
saved words are those that set_break saves in this order. -/
structure RestartFits (w : World) (d : SDB) (order : List Word) : Prop where
  rearmed : ∀ a ∈ d.addrList, ∀ x, offset a x < 8 → x ∈ d.addrList ∨ w.image d.programName x = some 0xff
  saved : ∀ (a v : Word), d.addrList[a]? = some v → ∀ i < 8,
    trapped (order.takeWhile (· ≠ a)) (w.image d.programName) (a+BitVec.ofNat 64 i) = some (byteAt v i)

theorem rearmed_eq_trapped (keys order : List Word) (m : Memory) (same : ∀ x, x ∈ order ↔ x ∈ keys) :
    rearmed keys m = trapped order m ↔ ∀ a ∈ keys, ∀ x, offset a x < 8 → x ∈ keys ∨ m x = some 0xff := by
  constructor
  · intro equal a member x near
    by_cases listed : x ∈ keys
    · exact .inl listed
    · have cell := congrFun equal x
      simp only [rearmed,trapped,same,if_neg listed] at cell
      rw [if_pos ⟨a,member,near⟩] at cell
      exact .inr cell.symm
  · intro fits
    funext x
    by_cases listed : x ∈ keys
    · simp [rearmed,trapped,same,listed]
    · simp only [rearmed,trapped,same,if_neg listed]
      split
      next covered =>
        obtain ⟨a,member,near⟩ := covered
        exact ((fits a member x near).resolve_left listed).symm
      next free => rfl

theorem fetch_eq_iff (m : Memory) (a v : Word) :
    fetch m a = some v ↔ ∀ i < 8, m (a+BitVec.ofNat 64 i) = some (byteAt v i) :=
  ⟨fun read => (fetch_bytes m a v read).2,fetch_eq m a v⟩

theorem loaded_clear {w : World} {s : Session} (reached : Reachable (debugger w) s) (loaded : s.sdb.state = .loaded) :
    s.sdb.preAddr = 0 ∧ s.sdb.preVal = 0 := by
  cases reachable_phase reached with
  | idle state pid preAddr preVal => exact ⟨preAddr,preVal⟩
  | live c state => exact absurd loaded (by simp [state])
  | dead signal state => exact absurd loaded (by simp [state])

/-- The list that set_break builds in this order is an old one exactly if the old
words are those that set_break saves. -/
theorem saved_lists {list fresh : AddrList} {order : List Word} (m : Memory) (members : ∀ a, a ∈ order ↔ a ∈ list)
    (lookup : ∀ a, fresh[a]? = if a ∈ order then fetch (trapped (order.takeWhile (· ≠ a)) m) a else none) :
    list = fresh ↔ ∀ (a v : Word), list[a]? = some v → ∀ i < 8,
      trapped (order.takeWhile (· ≠ a)) m (a+BitVec.ofNat 64 i) = some (byteAt v i) := by
  constructor
  · intro equal a v listed
    have member : a ∈ order := (members a).mpr (by rw [Std.ExtTreeMap.mem_iff_isSome_getElem?,listed]; rfl)
    rw [equal,lookup,if_pos member] at listed
    exact (fetch_eq_iff _ a v).mp listed
  · intro saved
    apply Std.ExtTreeMap.ext_getElem?
    intro a
    rw [lookup a]
    split
    next member =>
      have listed := (members a).mp member
      rw [Std.ExtTreeMap.mem_iff_isSome_getElem?] at listed
      obtain ⟨v,found⟩ := Option.isSome_iff_exists.mp listed
      rw [found,fetch_eq _ a v (saved a v found)]
    next unlisted => exact (unlisted_iff list a).mpr fun listed => unlisted ((members a).mpr listed)

/-- Restarting gives what a fresh session with the same breakpoints gives, exactly
when the program and the saved words fit. -/
theorem restart_fresh_iff_fits (w : World) (nulls : w.NullUnmapped) (s f t u : Session) (order : List Word)
    (fuel : Nat) (reached : Reachable (debugger w) s) (loaded : s.sdb.state = .loaded)
    (first : Reachable (debugger w) f) (loaded' : f.sdb.state = .loaded) (empty : f.sdb.addrList = ∅)
    (program : f.sdb.programName = s.sdb.programName) (section' : f.sdb.sectHeader = s.sdb.sectHeader)
    (distinct : order.Nodup) (members : ∀ a, a ∈ order ↔ a ∈ s.sdb.addrList)
    (restarted : (start w).run s = .done () t)
    (fresh : (script w fuel (.start::order.map .break)).run f = .done () u) :
    SameDebuggee t u ↔ RestartFits w s.sdb order := by
  obtain ⟨addr,value⟩ := loaded_clear reached loaded
  obtain ⟨addr',value'⟩ := loaded_clear first loaded'
  obtain ⟨other,_⟩ | ⟨_,pid,c,m,image,armed,sdb,_,process⟩ := start_done w s t restarted
  · exact absurd loaded other
  obtain ⟨_,v,begun,breaks⟩ := bind_done _ _ _ _ _ fresh
  obtain ⟨other,_⟩ | ⟨_,pid',c',m',image',armed',sdb',_,process'⟩ := start_done w f v begun
  · exact absurd loaded' other
  -- The fresh child runs the same image, and start writes nothing for an empty list.
  rw [program,image] at image'
  cases image'
  rw [empty] at armed'
  cases armed'
  have breaks : (order.forM setBreak).run v = .done () u := by
    rw [← script_breaks w fuel]
    exact breaks
  have text (a : Word) : v.sdb.inText a = s.sdb.inText a := by
    rw [sdb']
    simp only [SDB.inText,SDB.afterStart,section']
  obtain ⟨list,sdb'',process'',lookup⟩ := setBreaks_done order v u c (by rw [process',sdb']; rfl)
    (by rw [sdb']; rfl)
    (fun a member => by rw [text]; exact reachable_listed reached a ((members a).mp member))
    (fun a member => by rw [sdb']; simp [SDB.afterStart,empty]) distinct breaks
  have memory := (started_memory w s t pid c m nulls addr ⟨loaded,image,armed,sdb,by assumption,process⟩).1
  have equal : w.image s.sdb.programName = c.mem := by rw [World.image,image]
  have same (x : Word) : x ∈ order ↔ x ∈ s.sdb.addrList.toList.map Prod.fst := by rw [members,mem_keys]
  have memories := rearmed_eq_trapped _ order c.mem same
  have lists := saved_lists c.mem members fun a => by
    rw [lookup a,sdb']
    simp only [SDB.afterStart,empty,Std.ExtTreeMap.getElem?_empty]
  constructor
  · rintro ⟨⟨d,d',stopped,stopped',mems⟩,lists',_⟩
    rw [process,sdb] at stopped
    rw [process'',sdb''] at stopped'
    cases stopped
    cases stopped'
    rw [sdb,sdb''] at lists'
    refine ⟨?_,?_⟩
    · intro a listed x near
      have fit := memories.mp (by rw [← memory]; exact mems) a ((mem_keys _ a).mpr listed) x near
      rwa [mem_keys,← equal] at fit
    · rw [equal]
      exact lists.mp lists'
  · intro fits
    refine ⟨⟨{c with mem := m},{c with mem := trapped order c.mem},by rw [process,sdb]; rfl,
      by rw [process'',sdb''],?_⟩,?_,?_,?_⟩
    · rw [memory]
      refine memories.mpr ?_
      intro a listed x near
      rw [mem_keys,← equal]
      exact fits.rearmed a ((mem_keys _ a).mp listed) x near
    · rw [sdb,sdb'']
      refine lists.mpr ?_
      rw [← equal]
      exact fits.saved
    · rw [sdb,sdb'',sdb']
      exact addr.trans addr'.symm
    · rw [sdb,sdb'',sdb']
      exact value.trans value'.symm

def ranOnce : List Command := [.load "a.out",.start,.break 0x1000,.cont]

/-- The breakpoint at 0x1000 comes back with 0xff after it. -/
theorem restart_corrupts : Reachable (debugger exiting) (sampleSession exiting ranOnce) ∧
    Reachable (debugger exiting) (sampleSession exiting [.load "a.out"]) ∧ exiting.NullUnmapped ∧
    (start exiting).run (sampleSession exiting ranOnce) =
      .done () (sampleSession exiting (ranOnce ++ [.start])) ∧
    (script exiting 9 [.start,.break 0x1000]).run (sampleSession exiting [.load "a.out"]) =
      .done () (sampleSession exiting [.load "a.out",.start,.break 0x1000]) ∧
    ¬ SameDebuggee (sampleSession exiting (ranOnce ++ [.start]))
      (sampleSession exiting [.load "a.out",.start,.break 0x1000]) := by
  refine ⟨sample_reachable _ _,sample_reachable _ _,sample_nulls _ _,rfl,rfl,?_⟩
  rintro ⟨⟨c,c',stopped,stopped',mems⟩,_⟩
  cases stopped
  cases stopped'
  have cell := congrFun mems 0x1001
  revert cell
  decide

theorem restart_fresh_iff_fits_listed :
    SameDebuggee (sampleSession exiting (ranOnce ++ [.start]))
        (sampleSession exiting [.load "a.out",.start,.break 0x1000]) ↔
      RestartFits exiting (sampleSession exiting ranOnce).sdb [0x1000] := by
  have keys (a : Word) : a ∈ [0x1000#64] ↔ a ∈ (sampleSession exiting ranOnce).sdb.addrList := by
    rw [← mem_keys]
    exact Iff.rfl
  exact restart_fresh_iff_fits exiting (sample_nulls _ _) (sampleSession exiting ranOnce)
    (sampleSession exiting [.load "a.out"]) _ _ [0x1000] 9 (sample_reachable _ _) rfl (sample_reachable _ _)
    rfl rfl rfl rfl (by simp) keys rfl rfl

end Unixprog.Sdb
