import Unixprog.Sdb.Overlay
import Unixprog.Library.Patches
import Mathlib.Data.List.Sort

/-! The order in which breakpoints are set and deleted. A stopped child with the
list is a patched memory, and later commands see all of it. -/
namespace Unixprog.Sdb
open Words Runs Patches

def Session.patched (s : Session) (c : Child) : Patched := ⟨c.mem,fun a => s.sdb.addrList[a]?⟩

def position (list : AddrList) (a : Word) : Nat := (list.toList.map Prod.fst).idxOf a

inductive Follows (S : Finset Word) : Session → List Edit → Session → Prop
  | nil (s : Session) : Follows S s [] s
  | set {s u t : Session} (a : Word) (rest : List Edit) (member : a ∈ S)
      (done : (setBreak a).run s = .done () u) (more : Follows S u rest t) : Follows S s (.set a::rest) t
  | del {s u t : Session} (a : Word) (rest : List Edit) (listed : a ∈ s.sdb.addrList)
      (done : (del (position s.sdb.addrList a)).run s = .done () u) (more : Follows S u rest t) :
      Follows S s (.del a::rest) t

structure Edited (s : Session) (c : Child) (t : Session) (m : Memory) (list : AddrList) : Prop where
  sdb : t.sdb = {s.sdb with addrList := list}
  process : t.process = .stopped s.sdb.pid {c with mem := m}
  clock : t.clock = s.clock
  sent : t.sent = s.sent
  statuses : t.statuses = s.statuses
  opened : t.opened = s.opened

section Steps
variable {s t u : Session} {c : Child} {m n : Memory} {list more : AddrList}

theorem Edited.live (edited : Edited s c t m list) : t.process = .stopped t.sdb.pid {c with mem := m} := by
  rw [edited.process,edited.sdb]

theorem Edited.trans (first : Edited s c t m list) (second : Edited t {c with mem := m} u n more) :
    Edited s c u n more := by
  refine ⟨?_,?_,second.clock.trans first.clock,second.sent.trans first.sent,second.statuses.trans first.statuses,
    second.opened.trans first.opened⟩
  · rw [second.sdb,first.sdb]
  · rw [second.process,first.sdb]

theorem position_found {list : AddrList} {a v : Word} (listed : list[a]? = some v) :
    list.toList[position list a]? = some (a,v) := by
  have member : a ∈ list.toList.map Prod.fst := by
    rw [mem_keys,Std.ExtTreeMap.mem_iff_isSome_getElem?,listed]
    rfl
  have found := List.getElem?_idxOf member
  rw [List.getElem?_map,Option.map_eq_some_iff] at found
  obtain ⟨⟨b,u⟩,entry,same⟩ := found
  cases same
  have value := List.mem_of_getElem? entry
  rw [Std.ExtTreeMap.mem_toList_iff_getElem?_eq_some,listed] at value
  cases value
  exact entry

theorem set_done (live : s.process = .stopped s.sdb.pid c) (running : s.sdb.state = .running) (a : Word)
    (inside : s.sdb.inText a = true) (ok : (setBreak a).run s = .done () t) :
    ∃ m list, Edited s c t m list ∧ (s.patched c).edit 0xcc (.set a) = some ⟨m,fun x => list[x]?⟩ := by
  cases listed : s.sdb.addrList[a]? with
  | some v =>
    have key : a ∈ s.sdb.addrList := by
      rw [Std.ExtTreeMap.mem_iff_isSome_getElem?,listed]
      rfl
    rw [setBreak_listed running a inside key] at ok
    cases ok
    exact ⟨c.mem,s.sdb.addrList,⟨rfl,live,rfl,rfl,rfl,rfl⟩,by simp only [Patched.edit,Session.patched,listed]⟩
  | none =>
    have fresh : a ∉ s.sdb.addrList := by simpa using listed
    by_cases mapped : Mapped c.mem a
    · obtain ⟨code,found,_⟩ := fetch_mapped _ _ mapped
      rw [setBreak_fresh live running a code inside fresh found] at ok
      cases ok
      refine ⟨_,_,⟨rfl,rfl,rfl,rfl,rfl,rfl⟩,(edit_set listed found).trans ?_⟩
      simp only [Patched.afterSet,Session.patched,Option.some.injEq,Patched.mk.injEq,true_and]
      funext x
      rw [Function.update_apply]
      by_cases here : x = a
      · simp [here]
      · have other : ¬ a = x := fun same => here same.symm
        simp [Std.ExtTreeMap.getElem?_insert,here,other]
    · exact absurd ok (setBreak_unmapped live running a inside fresh mapped t)

theorem set_returns (live : s.process = .stopped s.sdb.pid c) (running : s.sdb.state = .running) (a : Word)
    (inside : s.sdb.inText a = true) {q : Patched} (done : (s.patched c).edit 0xcc (.set a) = some q) :
    ∃ t, (setBreak a).run s = .done () t := by
  cases listed : s.sdb.addrList[a]? with
  | some v =>
    have key : a ∈ s.sdb.addrList := by
      rw [Std.ExtTreeMap.mem_iff_isSome_getElem?,listed]
      rfl
    exact ⟨s,setBreak_listed running a inside key⟩
  | none =>
    have fresh : a ∉ s.sdb.addrList := by simpa using listed
    simp only [Patched.edit,Session.patched,listed,Option.map_eq_some_iff] at done
    obtain ⟨code,found,_⟩ := done
    exact ⟨_,setBreak_fresh live running a code inside fresh found⟩

theorem del_done (live : s.process = .stopped s.sdb.pid c) (running : s.sdb.state = .running) (a : Word)
    (listed : a ∈ s.sdb.addrList) (ok : (del (position s.sdb.addrList a)).run s = .done () t) :
    ∃ m list, Edited s c t m list ∧ (s.patched c).edit 0xcc (.del a) = some ⟨m,fun x => list[x]?⟩ := by
  rw [Std.ExtTreeMap.mem_iff_isSome_getElem?] at listed
  obtain ⟨v,value⟩ := Option.isSome_iff_exists.mp listed
  by_cases mapped : Mapped c.mem a
  · rw [del_listed live running _ a v (position_found value) mapped] at ok
    cases ok
    refine ⟨_,_,⟨rfl,rfl,rfl,rfl,rfl,rfl⟩,(edit_del value mapped).trans ?_⟩
    simp only [Patched.afterDel,Session.patched,Option.some.injEq,Patched.mk.injEq,true_and]
    funext x
    rw [Function.update_apply]
    by_cases here : x = a
    · simp [here]
    · have other : ¬ a = x := fun same => here same.symm
      simp [Std.ExtTreeMap.getElem?_erase,here,other]
  · exact absurd ok (del_unmapped live running _ a v (position_found value) mapped t)

theorem del_returns (live : s.process = .stopped s.sdb.pid c) (running : s.sdb.state = .running) (a : Word)
    {q : Patched} (done : (s.patched c).edit 0xcc (.del a) = some q) :
    a ∈ s.sdb.addrList ∧ ∃ t, (del (position s.sdb.addrList a)).run s = .done () t := by
  cases value : s.sdb.addrList[a]? with
  | none => simp [Patched.edit,Session.patched,value] at done
  | some v =>
    by_cases mapped : Mapped c.mem a
    · refine ⟨?_,_,del_listed live running _ a v (position_found value) mapped⟩
      rw [Std.ExtTreeMap.mem_iff_isSome_getElem?,value]
      rfl
    · simp [Patched.edit,Session.patched,value,mapped] at done

end Steps

theorem follows_edits (S : Finset Word) (s t : Session) (c : Child) (edits : List Edit)
    (live : s.process = .stopped s.sdb.pid c) (running : s.sdb.state = .running)
    (inside : ∀ a ∈ S, s.sdb.inText a = true) (follows : Follows S s edits t) :
    (∀ edit ∈ edits, edit.Within (· ∈ S)) ∧ ∃ m list, Edited s c t m list ∧
      (s.patched c).edits 0xcc edits = some ⟨m,fun a => list[a]?⟩ := by
  induction follows generalizing c with
  | nil s => exact ⟨by simp,c.mem,s.sdb.addrList,⟨rfl,live,rfl,rfl,rfl,rfl⟩,rfl⟩
  | @set s u t a rest member done more ih =>
    obtain ⟨m,list,edited,one⟩ := set_done live running a (inside a member) done
    obtain ⟨within,n,list',edited',others⟩ := ih _ edited.live (by rw [edited.sdb]; exact running)
      (by rw [edited.sdb]; exact inside)
    refine ⟨?_,n,list',edited.trans edited',edits_cons one ?_⟩
    · simpa [Edit.Within,member] using within
    · simpa only [Session.patched,edited.sdb] using others
  | @del s u t a rest listed done more ih =>
    obtain ⟨m,list,edited,one⟩ := del_done live running a listed done
    obtain ⟨within,n,list',edited',others⟩ := ih _ edited.live (by rw [edited.sdb]; exact running)
      (by rw [edited.sdb]; exact inside)
    refine ⟨?_,n,list',edited.trans edited',edits_cons one ?_⟩
    · simpa [Edit.Within] using within
    · simpa only [Session.patched,edited.sdb] using others

theorem edits_follow (S : Finset Word) (s : Session) (c : Child) (edits : List Edit) (q : Patched)
    (live : s.process = .stopped s.sdb.pid c) (running : s.sdb.state = .running)
    (inside : ∀ a ∈ S, s.sdb.inText a = true) (within : ∀ edit ∈ edits, edit.Within (· ∈ S))
    (done : (s.patched c).edits 0xcc edits = some q) : ∃ t, Follows S s edits t := by
  induction edits generalizing s c with
  | nil => exact ⟨s,.nil s⟩
  | cons edit edits ih =>
    simp only [Patched.edits,List.foldlM_cons,Option.bind_eq_bind,Option.bind_eq_some_iff] at done
    obtain ⟨next,one,rest⟩ := done
    have later (u : Session) (m : Memory) (list : AddrList) (edited : Edited s c u m list)
        (same : (s.patched c).edit 0xcc edit = some ⟨m,fun x => list[x]?⟩) : ∃ t, Follows S u edits t := by
      rw [one,Option.some.injEq] at same
      refine ih u {c with mem := m} edited.live (by rw [edited.sdb]; exact running)
        (by rw [edited.sdb]; exact inside) (fun edit member => within edit (.tail _ member)) ?_
      rw [same] at rest
      simpa only [Session.patched,edited.sdb,Patched.edits] using rest
    cases edit with
    | set a =>
      have member : a ∈ S := within _ (.head _)
      obtain ⟨u,ok⟩ := set_returns live running a (inside a member) one
      obtain ⟨m,list,edited,same⟩ := set_done live running a (inside a member) ok
      obtain ⟨t,more⟩ := later u m list edited same
      exact ⟨t,.set a edits member ok more⟩
    | del a =>
      obtain ⟨listed,u,ok⟩ := del_returns live running a one
      obtain ⟨m,list,edited,same⟩ := del_done live running a listed ok
      obtain ⟨t,more⟩ := later u m list edited same
      exact ⟨t,.del a edits listed ok more⟩

/-! What later commands see. -/

def Observer : Command → Prop
  | .break _ => True
  | .delete _ => True
  | .list => True
  | .dump _ => True
  | _ => False

def transcript (w : World) (s : Session) (commands : List Command) : Option Nat × List Message :=
  match (script w 0 commands).run {s with out := []} with
  | .done _ t => (none,t.out)
  | .exited code t => (some code,t.out)
  | .waiting => (none,[])

/-- No later sequence of set_break, del, list and dump tells the sessions apart. -/
def Alike (w : World) (s t : Session) : Prop :=
  ∀ commands, (∀ command ∈ commands, Observer command) → transcript w s commands = transcript w t commands

def rowBytes (m : Memory) (addr : Word) : List Byte :=
  (List.range 8).map (byteAt ((fetch m addr).getD (-1))) ++
    (List.range 8).map (byteAt ((fetch m (addr+8)).getD (-1)))

def dumpRows (m : Memory) (addr : Word) : List Message :=
  (List.range (80/16)).map fun i => .dumpRow (addr+BitVec.ofNat 64 (16*i)) (rowBytes m (addr+BitVec.ofNat 64 (16*i)))

theorem dumpRow_live {s : Session} {c : Child} (live : s.process = .stopped s.sdb.pid c) (addr : Word) :
    (dumpRow addr).run s = .done () (s.say (.dumpRow addr (rowBytes c.mem addr))) := by
  simp only [dumpRow,bind_run,peekText_live live,andThen_done,say_run,rowBytes]

theorem forM_prints {α : Type} (items : List α) (f : α → Op Unit) (g : α → Message) (P : Session → Prop)
    (kept : ∀ s item, P s → P (s.say (g item)))
    (prints : ∀ s item, P s → (f item).run s = .done () (s.say (g item))) (s : Session) (first : P s) :
    (items.forM f).run s = .done () {s with out := s.out ++ items.map g} := by
  induction items generalizing s with
  | nil => simp [List.forM]
  | cons item items ih =>
    change ((f item).run s).andThen (fun _ => items.forM f) = _
    rw [prints s item first,andThen_done,ih _ (kept s item first)]
    simp [Session.say]

theorem dump_live {s : Session} {c : Child} (live : s.process = .stopped s.sdb.pid c)
    (running : s.sdb.state = .running) (addr : Word) (inside : s.sdb.inText addr = true) :
    (dump addr).run s = .done () {s with out := s.out ++ dumpRows c.mem addr} := by
  simp only [dump,bind_run,read_run,andThen_done,running,ne_eq,not_true_eq_false,if_false,inside,
    Bool.not_true,Bool.false_eq_true]
  exact forM_prints _ _ _ (fun s => s.process = .stopped s.sdb.pid c) (fun _ _ live => live)
    (fun _ _ live => dumpRow_live live _) s live

theorem dumpRows_first (m n : Memory) (a : Word) (mapped : Mapped m a) (mapped' : Mapped n a)
    (same : dumpRows m a = dumpRows n a) : ∀ x, offset a x < 8 → m x = n x := by
  obtain ⟨v,found,_⟩ := fetch_mapped _ _ mapped
  obtain ⟨u,found',_⟩ := fetch_mapped _ _ mapped'
  have rows : rowBytes m a = rowBytes n a := by
    have head := congrArg (fun rows => rows[0]?) same
    simpa [dumpRows] using head
  have bytes : (List.range 8).map (byteAt v) = (List.range 8).map (byteAt u) := by
    have halves := congrArg (List.take 8) rows
    simpa [rowBytes,found,found'] using halves
  intro x near
  rw [byteAt_offset found near,byteAt_offset found' near]
  have entry := congrArg (fun bytes => bytes[offset a x]?) bytes
  simpa [near] using entry

section Telling
variable {w : World} {s t u : Session} {c : Child} {m n : Memory} {list more : AddrList}

theorem transcript_dump {s : Session} {c : Child} (live : s.process = .stopped s.sdb.pid c)
    (running : s.sdb.state = .running) (a : Word) (inside : s.sdb.inText a = true) :
    transcript w s [.dump a] = (none,dumpRows c.mem a) := by
  have shown := dump_live (s := {s with out := []}) live running a inside
  rw [transcript,script_cons]
  simp only [Command.perform,shown,andThen_done,List.nil_append]
  rfl

theorem transcript_delete_dump {s : Session} {c : Child} (live : s.process = .stopped s.sdb.pid c)
    (running : s.sdb.state = .running) (id : Nat) (a v : Word) (inside : s.sdb.inText a = true)
    (found : s.sdb.addrList.toList[id]? = some (a,v)) (mapped : Mapped c.mem a) :
    transcript w s [.delete id,.dump a] = (none,.debug s!"breakpoint {(id : Int)} deleted."::
      dumpRows (overwrite c.mem a fun i => some (byteAt v i)) a) := by
  have deleted := del_listed (s := {s with out := []}) live running id a v found mapped
  rw [transcript,script_cons]
  simp only [Command.perform]
  rw [deleted,andThen_done,script_cons]
  simp only [Command.perform]
  rw [dump_live (c := {c with mem := overwrite c.mem a fun i => some (byteAt v i)}) ?live ?running a ?inside]
  case live => rfl
  case running => exact running
  case inside => exact inside
  rfl

theorem alike_memory (alike : Alike w t u) (edited : Edited s c t m list) (edited' : Edited s c u n more)
    (running : s.sdb.state = .running) (a : Word) (inside : s.sdb.inText a = true) (mapped : Mapped m a)
    (mapped' : Mapped n a) : ∀ x, offset a x < 8 → m x = n x := by
  have seen := alike [.dump a] (by simp [Observer])
  rw [transcript_dump edited.live (by rw [edited.sdb]; exact running) a (by rw [edited.sdb]; exact inside),
    transcript_dump edited'.live (by rw [edited'.sdb]; exact running) a (by rw [edited'.sdb]; exact inside)] at seen
  exact dumpRows_first m n a mapped mapped' (Prod.mk.inj seen).2

theorem same_position (same : ∀ a, a ∈ list ↔ a ∈ more) (a : Word) : position list a = position more a := by
  have keys : list.toList.map Prod.fst = more.toList.map Prod.fst := by
    refine (keys_ascending list).eq_of_mem_iff (keys_ascending more) ?_
    intro x
    rw [mem_keys,mem_keys,same]
  rw [position,position,keys]

theorem alike_words (alike : Alike w t u) (edited : Edited s c t m list) (edited' : Edited s c u n more)
    (running : s.sdb.state = .running) (same : ∀ a, a ∈ list ↔ a ∈ more) (a v v' : Word)
    (inside : s.sdb.inText a = true) (mapped : Mapped m a) (mapped' : Mapped n a)
    (listed : list[a]? = some v) (listed' : more[a]? = some v') : v = v' := by
  have found := position_found listed
  have found' := position_found listed'
  rw [← same_position same a] at found'
  have seen := alike [.delete (position list a),.dump a] (by simp [Observer])
  rw [transcript_delete_dump edited.live (by rw [edited.sdb]; exact running) _ a v
      (by rw [edited.sdb]; exact inside) (by rw [edited.sdb]; exact found) mapped,
    transcript_delete_dump edited'.live (by rw [edited'.sdb]; exact running) _ a v'
      (by rw [edited'.sdb]; exact inside) (by rw [edited'.sdb]; exact found') mapped'] at seen
  have rows := (List.cons.inj (Prod.mk.inj seen).2).2
  have cells := dumpRows_first _ _ a ((overwrite_mapped m a a v mapped).mpr mapped)
    ((overwrite_mapped n a a v' mapped').mpr mapped') rows
  apply word_ext
  intro i small
  have cell := cells (a+BitVec.ofNat 64 i) (by rw [offset_add a i (by omega)]; exact small)
  rw [overwrite_inside _ _ _ i small,overwrite_inside _ _ _ i small] at cell
  exact Option.some.inj cell

theorem alike_iff {S : Word → Prop} (edited : Edited s c t m list) (edited' : Edited s c u n more)
    (running : s.sdb.state = .running) (inside : ∀ a, a ∈ s.sdb.addrList ∨ S a → s.sdb.inText a = true)
    (framed : Framed S (s.patched c) ⟨m,fun a => list[a]?⟩) (framed' : Framed S (s.patched c) ⟨n,fun a => more[a]?⟩)
    (same : ∀ a, a ∈ list ↔ a ∈ more) :
    Alike w t u ↔ (⟨m,fun a => list[a]?⟩ : Patched) = ⟨n,fun a => more[a]?⟩ := by
  constructor
  · intro alike
    have keyed (a : Word) (key : (s.patched c).saved a ≠ none ∨ S a) : s.sdb.inText a = true := by
      refine inside a (key.imp_left ?_)
      intro listed
      simpa [Session.patched] using listed
    have cells : m = n := by
      funext x
      -- A cell that either side changed lies in the word of an address that can be dumped.
      have through (a : Word) (key : (s.patched c).saved a ≠ none ∨ S a) (mapped : Mapped (s.patched c).mem a)
          (near : offset a x < 8) : m x = n x :=
        alike_memory alike edited edited' running a (keyed a key) ((framed.mapped a).mpr mapped)
          ((framed'.mapped a).mpr mapped) x near
      obtain left | ⟨a,key,mapped,near⟩ := framed.cells x
      · obtain right | ⟨a,key,mapped,near⟩ := framed'.cells x
        · exact left.trans right.symm
        · exact through a key mapped near
      · exact through a key mapped near
    have words : (fun a : Word => list[a]?) = fun a : Word => more[a]? := by
      funext a
      have present := same a
      rw [Std.ExtTreeMap.mem_iff_isSome_getElem?,Std.ExtTreeMap.mem_iff_isSome_getElem?] at present
      cases listed : list[a]? with
      | none =>
        rw [listed] at present
        simpa using present
      | some v =>
        rw [listed] at present
        obtain ⟨v',listed'⟩ := Option.isSome_iff_exists.mp (present.mp rfl)
        rw [listed',Option.some.injEq]
        by_cases mapped : Mapped (s.patched c).mem a
        · have key := framed.keys a (by simp [listed])
          exact alike_words alike edited edited' running same a v v' (keyed a key) ((framed.mapped a).mpr mapped)
            ((framed'.mapped a).mpr mapped) listed listed'
        · have left : list[a]? = _ := framed.unmapped a mapped
          have right : more[a]? = _ := framed'.unmapped a mapped
          rw [← right,listed,listed'] at left
          exact Option.some.inj left
    rw [cells,words]
  · intro equal commands _
    obtain ⟨cells,words⟩ := Patched.mk.inj equal
    have lists : list = more := Std.ExtTreeMap.ext_getElem? fun a => congrFun words a
    have sessions : {t with out := []} = {u with out := []} := by
      cases t
      cases u
      have fields := edited.sdb.trans (lists ▸ edited'.sdb.symm)
      have child := edited.process.trans (cells ▸ edited'.process.symm)
      have clocks := edited.clock.trans edited'.clock.symm
      have sents := edited.sent.trans edited'.sent.symm
      have told := edited.statuses.trans edited'.statuses.symm
      have streams := edited.opened.trans edited'.opened.symm
      simp only at fields child clocks sents told streams
      subst fields child clocks sents told streams
      rfl
    rw [transcript,transcript,sessions]

end Telling

/-- Any two sequences that leave the same breakpoints lead to sessions that are alike. -/
def Indifferent (w : World) (s : Session) (S : Finset Word) : Prop :=
  ∀ first second t u, Follows S s first t → Follows S s second u →
    (∀ a, a ∈ t.sdb.addrList ↔ a ∈ u.sdb.addrList) → Alike w t u

/-- The order is irrelevant exactly when the saved words and the bytes under the traps fit. -/
theorem order_irrelevant_iff_fits (w : World) (s : Session) (c : Child) (S : Finset Word)
    (reached : Reachable (debugger w) s) (live : s.tracee = some c)
    (inside : ∀ a ∈ S, s.sdb.inText a = true) :
    Indifferent w s S ↔ OrderFits 0xcc (· ∈ S) (s.patched c) := by
  rw [tracee_some] at live
  have running : s.sdb.state = .running := stopped_running (reachable_phase reached) live
  have text (a : Word) (key : a ∈ s.sdb.addrList ∨ a ∈ S) : s.sdb.inText a = true :=
    key.elim (reachable_listed reached a) (inside a)
  -- Two sessions that the calls lead to, compared through their patched memories.
  have compare (first second : List Edit) (t u : Session) (m n : Memory) (list more : AddrList)
      (within : ∀ edit ∈ first, edit.Within (· ∈ S)) (within' : ∀ edit ∈ second, edit.Within (· ∈ S))
      (edited : Edited s c t m list) (edited' : Edited s c u n more)
      (done : (s.patched c).edits 0xcc first = some ⟨m,fun a => list[a]?⟩)
      (done' : (s.patched c).edits 0xcc second = some ⟨n,fun a => more[a]?⟩)
      (same : ∀ a, a ∈ list ↔ a ∈ more) :
      Alike w t u ↔ (⟨m,fun a => list[a]?⟩ : Patched) = ⟨n,fun a => more[a]?⟩ :=
    alike_iff edited edited' running text (framed_edits framed_refl first within done)
      (framed_edits framed_refl second within' done') same
  rw [← irrelevant_iff_fits]
  constructor
  · intro indifferent first second q r within within' done done' keys
    obtain ⟨t,follows⟩ := edits_follow S s c first q live running inside within done
    obtain ⟨u,follows'⟩ := edits_follow S s c second r live running inside within' done'
    obtain ⟨_,m,list,edited,again⟩ := follows_edits S s t c first live running inside follows
    obtain ⟨_,n,more,edited',again'⟩ := follows_edits S s u c second live running inside follows'
    rw [done,Option.some.injEq] at again
    rw [done',Option.some.injEq] at again'
    subst q r
    have same (a : Word) : a ∈ list ↔ a ∈ more := by
      have none := keys a
      simp only [unlisted_iff] at none
      exact not_iff_not.mp none
    refine (compare first second t u m n list more within within' edited edited' done done' same).mp ?_
    refine indifferent first second t u follows follows' ?_
    rw [edited.sdb,edited'.sdb]
    exact same
  · intro irrelevant first second t u follows follows' keys
    obtain ⟨within,m,list,edited,done⟩ := follows_edits S s t c first live running inside follows
    obtain ⟨within',n,more,edited',done'⟩ := follows_edits S s u c second live running inside follows'
    rw [edited.sdb,edited'.sdb] at keys
    refine (compare first second t u m n list more within within' edited edited' done done' keys).mpr ?_
    refine irrelevant first second _ _ within within' done done' ?_
    intro a
    simp only [unlisted_iff]
    exact not_congr (keys a)

def stoppedSample : Session := sampleSession exiting [.load "a.out",.start]

theorem stopped_inside (a b : Word) (first : stoppedSample.sdb.inText a = true)
    (second : stoppedSample.sdb.inText b = true) :
    ∀ x ∈ ({a,b} : Finset Word), stoppedSample.sdb.inText x = true := by
  intro x member
  rw [Finset.mem_insert,Finset.mem_singleton] at member
  rcases member with rfl | rfl
  · exact first
  · exact second

def secondByte : List Message → Option Byte
  | .dumpRow _ data::_ => data[1]?
  | _ => none

/-- The higher of two neighbours set first and deleted first leaves its trap behind. -/
theorem neighbours_tell_order : Reachable (debugger exiting) stoppedSample ∧
    stoppedSample.sdb.preAddr = 0 ∧ stoppedSample.tracee = some ⟨samplePage [],sampleRegs 0x1000⟩ ∧
    (∀ a ∈ ({0x1000,0x1001} : Finset Word), stoppedSample.sdb.inText a = true) ∧
    ¬ Indifferent exiting stoppedSample {0x1000,0x1001} := by
  refine ⟨sample_reachable _ _,rfl,rfl,stopped_inside _ _ rfl rfl,?_⟩
  intro indifferent
  have alike := indifferent [.set 0x1001,.set 0x1000,.del 0x1001,.del 0x1000] [] _ _
    (.set 0x1001 _ (by decide) rfl (.set 0x1000 _ (by decide) rfl
      (.del 0x1001 _ (by decide) rfl (.del 0x1000 _ (by decide) rfl (.nil _))))) (.nil _) ?_
  · have seen := alike [.dump 0x1000] (by simp [Observer])
    have byte := congrArg (fun seen => secondByte seen.2) seen
    revert byte
    decide
  · intro a
    rw [← mem_keys,← mem_keys]
    exact Iff.rfl

theorem order_irrelevant_iff_fits_stopped : Indifferent exiting stoppedSample {0x1000,0x1008} ↔
    OrderFits 0xcc (· ∈ ({0x1000,0x1008} : Finset Word))
      (stoppedSample.patched ⟨samplePage [],sampleRegs 0x1000⟩) :=
  order_irrelevant_iff_fits exiting stoppedSample _ {0x1000,0x1008} (sample_reachable _ _) rfl
    (stopped_inside _ _ rfl rfl)

end Unixprog.Sdb
