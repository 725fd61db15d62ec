import Mathlib.Data.Finset.Sort
import Unixprog.Sdb.Deletion
import Unixprog.Sdb.Load

/-! What the debugger is for: a program in one of four stages and a set of breakpoints over it. The sessions
of sdb refine this, whatever the child does. -/
namespace Unixprog.Sdb
open Words Runs

/-- `dead` is a child that a signal ended: sdb still takes it for a running one. -/
inductive Stage
  | empty
  | loaded
  | live
  | dead
deriving DecidableEq

def Stage.running (stage : Stage) : Prop := stage = .live ∨ stage = .dead

inductive Action (α : Type)
  | place (a : α)
  | remove (k : Int)
  | load
  | start
  | resume
  | launch
  | assign
  | look
  | leave

structure Control (α : Type) where
  stage : Stage
  text : Set α
  breaks : Finset α

/-- The stages in which an action can end. Without a child some never return to the prompt. -/
def Action.turns {α : Type} : Action α → Stage → List Stage
  | .load,.empty => [.empty,.loaded]
  | .start,.loaded => [.live]
  | .resume,.live => [.loaded,.live,.dead]
  | .resume,.dead => []
  | .launch,.loaded => [.loaded,.live,.dead]
  | .launch,.live => [.loaded,.live,.dead]
  | .launch,.dead => []
  | .assign,.live => [.live]
  | .assign,_ => []
  | .leave,_ => []
  | _,stage => [stage]

section Control
variable {α : Type} [LinearOrder α]

/-- Breakpoints are numbered in the order of their addresses. -/
def numbered (breaks : Finset α) (k : Int) : Option α := if 0 ≤ k then breaks.sort[k.toNat]? else none

open Classical in
/-- The breakpoints after an action, which the child has no part in. -/
noncomputable def Control.edit (c : Control α) : Action α → Finset α
  | .place a => if c.stage.running ∧ a ∈ c.text then insert a c.breaks else c.breaks
  | .remove k => if c.stage.running then match numbered c.breaks k with
      | some a => c.breaks.erase a
      | none => c.breaks
    else c.breaks
  | _ => c.breaks

structure Control.Steps (c : Control α) (action : Action α) (c' : Control α) : Prop where
  stage : c'.stage ∈ action.turns c.stage
  breaks : c'.breaks = c.edit action
  text : c'.text = c.text ∨ c.stage = .empty ∧ c'.stage = .loaded

def controller (α : Type) [LinearOrder α] : System (Control α) (Action α) where
  initial c := c.stage = .empty ∧ c.breaks = ∅
  step := Control.Steps

/-- The breakpoints are in the text, and there are none before it is known. -/
def Control.Sound (c : Control α) : Prop := (∀ a ∈ c.breaks, a ∈ c.text) ∧ (c.stage = .empty → c.breaks = ∅)

theorem edit_subset (c : Control α) {action : Action α} (kept : ∀ a, action ≠ .place a) : c.edit action ⊆ c.breaks := by
  cases action with
  | place a => exact absurd rfl (kept a)
  | remove k =>
    simp only [Control.edit]
    split
    · cases numbered c.breaks k with
      | none => exact subset_rfl
      | some a => exact Finset.erase_subset _ _
    · exact subset_rfl
  | _ => exact subset_rfl

theorem not_running_edit {c : Control α} (idle : ¬ c.stage.running) (action : Action α) : c.edit action = c.breaks := by
  cases action <;> simp [Control.edit,idle]

theorem edit_removes {c : Control α} {k : Int} {a : α} (running : c.stage.running)
    (found : numbered c.breaks k = some a) : c.edit (.remove k) = c.breaks.erase a := by
  simp only [Control.edit,if_pos running,found]

theorem edit_misses {c : Control α} {k : Int} (missing : numbered c.breaks k = none) :
    c.edit (.remove k) = c.breaks := by
  simp only [Control.edit,missing,ite_self]

theorem Control.Steps.sound {c c' : Control α} {action : Action α} (steps : c.Steps action c') (sound : c.Sound) :
    c'.Sound := by
  obtain ⟨inside,none⟩ := sound
  by_cases fresh : c.stage = .empty
  · have idle : ¬ c.stage.running := by simp [Stage.running,fresh]
    have left : c'.breaks = ∅ := by rw [steps.breaks,not_running_edit idle,none fresh]
    exact ⟨by simp [left],fun _ => left⟩
  have same : c'.text = c.text := steps.text.resolve_right fun load => fresh load.1
  have later : c'.stage ≠ .empty := by
    intro back
    have turned := steps.stage
    rw [back] at turned
    cases action <;> cases stage : c.stage <;> simp_all [Action.turns]
  refine ⟨fun a listed => ?_,fun back => absurd back later⟩
  rw [same]
  rw [steps.breaks] at listed
  by_cases placed : ∃ b, action = .place b
  · obtain ⟨b,rfl⟩ := placed
    simp only [Control.edit] at listed
    split at listed
    next within =>
      obtain rfl | old := Finset.mem_insert.mp listed
      · exact within.2
      · exact inside a old
    next => exact inside a listed
  · exact inside a (edit_subset c (fun b same => placed ⟨b,same⟩) listed)

/-- Without a removal nothing is lost, and only what is placed in the text of a running program is new. -/
theorem Control.Steps.grows {c c' : Control α} {action : Action α} (steps : c.Steps action c')
    (kept : ∀ k, action ≠ .remove k) (a : α) :
    a ∈ c'.breaks ↔ a ∈ c.breaks ∨ action = .place a ∧ c.stage.running ∧ a ∈ c.text := by
  rw [steps.breaks]
  cases action with
  | remove k => exact absurd rfl (kept k)
  | place b =>
    simp only [Control.edit,Action.place.injEq]
    split
    next within =>
      rw [Finset.mem_insert]
      constructor
      · rintro (rfl | old)
        · exact .inr ⟨rfl,within⟩
        · exact .inl old
      · rintro (old | ⟨rfl,_⟩)
        · exact .inr old
        · exact .inl rfl
    next outside =>
      refine ⟨.inl,?_⟩
      rintro (old | ⟨rfl,within⟩)
      · exact old
      · exact absurd within outside
  | _ => simp [Control.edit]

theorem run_grows {length : Nat} {states : Nat → Control α} {labels : Nat → Action α}
    (run : Run (controller α) (fun _ _ => True) length states labels) {i j : Nat} (order : i ≤ j) (bound : j ≤ length)
    (kept : ∀ n, i ≤ n → n < j → ∀ k, labels n ≠ .remove k) (a : α) :
    a ∈ (states j).breaks ↔ a ∈ (states i).breaks ∨
      ∃ n, i ≤ n ∧ n < j ∧ labels n = .place a ∧ (states n).stage.running ∧ a ∈ (states n).text := by
  induction j, order using Nat.le_induction with
  | base =>
    refine ⟨.inl,?_⟩
    rintro (old | ⟨n,low,high,_⟩)
    · exact old
    · omega
  | succ j order ih =>
    have steps : (states j).Steps (labels j) (states (j+1)) := run.moved j (by omega)
    rw [steps.grows (kept j order (by omega)),ih (by omega) fun n low high => kept n low (by omega)]
    constructor
    · rintro ((old | ⟨n,low,high,placed⟩) | placed)
      · exact .inl old
      · exact .inr ⟨n,low,by omega,placed⟩
      · exact .inr ⟨j,order,by omega,placed⟩
    · rintro (old | ⟨n,low,high,placed⟩)
      · exact .inl (.inl old)
      · obtain earlier | rfl := Nat.lt_succ_iff_lt_or_eq.mp high
        · exact .inl (.inr ⟨n,low,earlier,placed⟩)
        · exact .inr placed

theorem run_sound {length : Nat} {states : Nat → Control α} {labels : Nat → Action α}
    (run : Run (controller α) (fun _ _ => True) length states labels) {k : Nat} (bound : k ≤ length) :
    (states k).Sound := by
  induction k with
  | zero =>
    have none : (states 0).breaks = ∅ := run.first.2
    exact ⟨by simp [none],fun _ => none⟩
  | succ k ih =>
    have steps : (states k).Steps (labels k) (states (k+1)) := run.moved k (by omega)
    exact steps.sound (ih (by omega))

end Control

/-! The session as it is seen from above. -/

def Session.stage (s : Session) : Stage :=
  match s.sdb.state with
  | .notLoaded => .empty
  | .loaded => .loaded
  | .running => if s.tracee.isSome then .live else .dead

def keys (list : AddrList) : List Word := list.toList.map Prod.fst

def Session.control (s : Session) : Control ℕ where
  stage := s.stage
  text := {n | ∃ a : Word, a.toNat = n ∧ s.sdb.inText a = true}
  breaks := ((keys s.sdb.addrList).map BitVec.toNat).toFinset

def Command.action : Command → Action ℕ
  | .break addr => .place addr.toNat
  | .cont => .resume
  | .delete id => .remove id
  | .exit => .leave
  | .load _ => .load
  | .run => .launch
  | .set _ _ => .assign
  | .si => .resume
  | .start => .start
  | _ => .look

section Views
variable {s t : Session}

theorem keys_numbers (list : AddrList) : ((keys list).map BitVec.toNat).Pairwise (· < ·) :=
  List.pairwise_map.mpr (keys_ascending list)

theorem mem_breaks (s : Session) (n : ℕ) : n ∈ s.control.breaks ↔ ∃ a ∈ s.sdb.addrList, a.toNat = n := by
  have member (a : Word) : a ∈ keys s.sdb.addrList ↔ a ∈ s.sdb.addrList := mem_keys _ a
  simp only [Session.control,List.mem_toFinset,List.mem_map,member]

theorem listed_breaks (s : Session) (a : Word) : a.toNat ∈ s.control.breaks ↔ a ∈ s.sdb.addrList := by
  rw [mem_breaks]
  refine ⟨?_,fun listed => ⟨a,listed,rfl⟩⟩
  rintro ⟨b,listed,same⟩
  exact BitVec.eq_of_toNat_eq same ▸ listed

theorem text_control (s : Session) (a : Word) : a.toNat ∈ s.control.text ↔ s.sdb.inText a = true := by
  refine ⟨?_,fun inside => ⟨a,rfl,inside⟩⟩
  rintro ⟨b,same,inside⟩
  exact BitVec.eq_of_toNat_eq same ▸ inside

theorem breaks_sorted (s : Session) : s.control.breaks.sort = (keys s.sdb.addrList).map BitVec.toNat := by
  have ascending := keys_numbers s.sdb.addrList
  have distinct : ((keys s.sdb.addrList).map BitVec.toNat).Nodup := ascending.imp fun less => less.ne
  exact (List.toFinset_sort (· ≤ ·) distinct).mpr (ascending.imp fun less => less.le)

theorem running_iff (s : Session) : s.control.stage.running ↔ s.sdb.state = .running := by
  simp only [Session.control,Session.stage,Stage.running]
  cases s.sdb.state with
  | running => by_cases traced : s.tracee.isSome <;> simp [traced]
  | _ => simp

theorem Unchanged.control (same : Unchanged s t) : t.control = s.control := by
  have tracee : t.tracee = s.tracee := by simp only [Session.tracee,same.sdb,same.process]
  simp only [Session.control,Session.stage,tracee,same.sdb]

theorem breaks_congr (same : t.sdb.addrList = s.sdb.addrList) : t.control.breaks = s.control.breaks := by
  simp only [Session.control,same]

theorem text_congr (same : t.sdb.sectHeader = s.sdb.sectHeader) : t.control.text = s.control.text := by
  simp only [Session.control,SDB.inText,same]

theorem stage_live {c : Child} (state : s.sdb.state = .running) (live : s.process = .stopped s.sdb.pid c) :
    s.control.stage = .live := by
  simp [Session.control,Session.stage,state,tracee_live live]

theorem stage_dead (state : s.sdb.state = .running) (none : s.tracee = none) : s.control.stage = .dead := by
  simp [Session.control,Session.stage,state,none]

/-- A command that changes nothing, where its action may stay in its stage. -/
theorem steps_same {action : Action ℕ} (same : Unchanged s t) (stays : s.control.stage ∈ action.turns s.control.stage)
    (edit : s.control.edit action = s.control.breaks) : s.control.Steps action t.control := by
  rw [same.control]
  exact ⟨stays,edit.symm,.inl rfl⟩

end Views

section Steps
variable {w : World} {fuel : Nat} {s t : Session}

theorem idle_stage (idle : s.sdb.state ≠ .running) : s.control.stage = .empty ∨ s.control.stage = .loaded := by
  simp only [Session.control,Session.stage]
  cases state : s.sdb.state with
  | running => exact absurd state idle
  | _ => simp

/-- A command on a child that is still stopped after it. -/
theorem steps_live {action : Action ℕ} {c c' : Child} (running : s.sdb.state = .running)
    (live : s.process = .stopped s.sdb.pid c) (state : t.sdb.state = .running)
    (stopped : t.process = .stopped t.sdb.pid c') (header : t.sdb.sectHeader = s.sdb.sectHeader)
    (stays : .live ∈ action.turns .live) (edited : t.control.breaks = s.control.edit action) :
    s.control.Steps action t.control := by
  refine ⟨?_,edited,.inl (text_congr header)⟩
  rwa [stage_live running live,stage_live state stopped]

theorem insert_breaks (addr code : Word) (same : t.sdb.addrList = s.sdb.addrList.insert addr code) :
    t.control.breaks = insert addr.toNat s.control.breaks := by
  ext n
  rw [Finset.mem_insert,mem_breaks,mem_breaks,same]
  simp only [Std.ExtTreeMap.mem_insert,Std.LawfulEqCmp.compare_eq_iff_eq]
  constructor
  · rintro ⟨a,rfl | listed,rfl⟩
    · exact .inl rfl
    · exact .inr ⟨a,listed,rfl⟩
  · rintro (rfl | ⟨a,listed,rfl⟩)
    · exact ⟨addr,.inl rfl,rfl⟩
    · exact ⟨a,.inr listed,rfl⟩

theorem erase_breaks (addr : Word) (same : t.sdb.addrList = s.sdb.addrList.erase addr) :
    t.control.breaks = s.control.breaks.erase addr.toNat := by
  ext n
  rw [Finset.mem_erase,mem_breaks,mem_breaks,same]
  have differ (a : Word) : compare addr a ≠ .eq ↔ addr ≠ a := not_congr Std.LawfulEqCmp.compare_eq_iff_eq
  simp only [Std.ExtTreeMap.mem_erase,differ]
  constructor
  · rintro ⟨a,⟨other,listed⟩,rfl⟩
    exact ⟨fun equal => other (BitVec.eq_of_toNat_eq equal).symm,a,listed,rfl⟩
  · rintro ⟨other,a,listed,rfl⟩
    exact ⟨a,⟨fun equal => other (congrArg BitVec.toNat equal).symm,listed⟩,rfl⟩

/-- break, whether or not there is a child. -/
theorem setBreak_steps {addr : Word} (ok : (setBreak addr).run s = .done () t) :
    s.control.Steps (.place addr.toNat) t.control := by
  have stays : s.control.stage ∈ (Action.place addr.toNat).turns s.control.stage := by simp [Action.turns]
  by_cases running : s.sdb.state = .running
  · have stage := (running_iff s).mpr running
    by_cases inside : s.sdb.inText addr = true
    · have placed : s.control.edit (.place addr.toNat) = insert addr.toNat s.control.breaks :=
        if_pos ⟨stage,(text_control s addr).mpr inside⟩
      by_cases listed : addr ∈ s.sdb.addrList
      · rw [setBreak_listed running addr inside listed] at ok
        cases ok
        refine steps_same (.refl s) stays ?_
        rw [placed,Finset.insert_eq_of_mem ((listed_breaks s addr).mpr listed)]
      cases tracee : s.tracee with
      | none =>
        simp only [setBreak,bind_run,read_run,andThen_done,running,ne_eq,not_true_eq_false,if_false,inside,
          Bool.not_true,Bool.false_eq_true,listed,peekText_childless tracee,onSdb_run] at ok
        rw [pokeText_childless ?childless] at ok
        case childless => exact tracee
        simp at ok
      | some c =>
        have live := (tracee_some s c).mp tracee
        by_cases mapped : Mapped c.mem addr
        · obtain ⟨code,found,_⟩ := fetch_mapped _ _ mapped
          rw [setBreak_fresh live running addr code inside listed found] at ok
          cases ok
          exact steps_live running live running rfl rfl (by simp [Action.turns])
            ((insert_breaks addr code rfl).trans placed.symm)
        · exact absurd ok (setBreak_unmapped live running addr inside listed mapped t)
    · simp only [setBreak,bind_run,read_run,andThen_done,running,ne_eq,not_true_eq_false,if_false,inside,
        Bool.not_false,if_true] at ok
      refine steps_same (quiet_debug _ s () t ok) stays (if_neg fun within => inside ?_)
      exact (text_control s addr).mp within.2
  · simp only [setBreak,bind_run,read_run,andThen_done,if_pos running] at ok
    exact steps_same (quiet_debug _ s () t ok) stays (not_running_edit (fun on => running ((running_iff s).mp on)) _)

/-- delete, whether or not there is a child. -/
theorem del_steps {id : Int} (ok : (del id).run s = .done () t) : s.control.Steps (.remove id) t.control := by
  have stays : s.control.stage ∈ (Action.remove id : Action ℕ).turns s.control.stage := by simp [Action.turns]
  by_cases running : s.sdb.state = .running
  · have stage := (running_iff s).mpr running
    by_cases positive : 0 ≤ id
    · obtain ⟨k,rfl⟩ := Int.eq_ofNat_of_zero_le positive
      have named : numbered s.control.breaks (k : Int) = ((keys s.sdb.addrList)[k]?).map BitVec.toNat := by
        rw [numbered,if_pos positive,breaks_sorted,List.getElem?_map,Int.toNat_natCast]
      cases found : s.sdb.addrList.toList[k]? with
      | none =>
        have beyond : (keys s.sdb.addrList)[k]? = none := by rw [keys,List.getElem?_map,found]; rfl
        have outside : s.sdb.addrList.size ≤ k := by
          rwa [List.getElem?_eq_none_iff,Std.ExtTreeMap.length_toList] at found
        rw [del_outside running (.inr (by omega))] at ok
        cases ok
        exact steps_same ⟨rfl,rfl,rfl,rfl⟩ stays (edit_misses (by rw [named,beyond]; rfl))
      | some entry =>
        obtain ⟨⟨c,live,mapped⟩,erased⟩ := del_writable running found ok
        have among : (keys s.sdb.addrList)[k]? = some entry.1 := by rw [keys,List.getElem?_map,found]; rfl
        rw [del_listed live running k entry.1 entry.2 found mapped] at ok
        cases ok
        refine steps_live running live running rfl rfl (by simp [Action.turns]) ?_
        rw [edit_removes stage (by rw [named,among]; rfl)]
        exact erase_breaks entry.1 rfl
    · rw [del_outside running (.inl (by omega))] at ok
      cases ok
      exact steps_same ⟨rfl,rfl,rfl,rfl⟩ stays (edit_misses (if_neg positive))
  · simp only [del,bind_run,read_run,andThen_done,if_pos running] at ok
    exact steps_same (quiet_debug _ s () t ok) stays (not_running_edit (fun on => running ((running_iff s).mp on)) _)

theorem load_steps {fileName : String} (ok : (load w fileName).run s = .done () t) :
    s.control.Steps .load t.control := by
  have quiet (idle : s.sdb.state = .notLoaded) (state : t.sdb.state = .notLoaded) (list : t.sdb.addrList = s.sdb.addrList)
      (header : t.sdb.sectHeader = s.sdb.sectHeader) : s.control.Steps .load t.control := by
    refine ⟨?_,breaks_congr list,.inl (text_congr header)⟩
    simp [Action.turns,Session.control,Session.stage,state,idle]
  cases load_loading w fileName s with
  | busy busy ran =>
    simp only [ran,Outcome.done.injEq,true_and] at ok
    subst t
    refine steps_same ⟨rfl,rfl,rfl,rfl⟩ ?_ rfl
    have busy : s.control.stage ≠ .empty := by
      simp only [Session.control,Session.stage]
      cases state : s.sdb.state with
      | notLoaded => exact absurd state busy
      | loaded => simp
      | running =>
        dsimp only
        split <;> simp
    cases stage : s.control.stage <;> simp_all [Action.turns]
  | missing idle missing ran =>
    simp only [ran,Outcome.done.injEq,true_and] at ok
    subst t
    exact quiet idle idle rfl rfl
  | refused bytes idle found bad ran =>
    simp only [ran,Outcome.done.injEq,true_and] at ok
    subst t
    exact quiet idle (by simp [SDB.headed,idle]) (by simp [SDB.headed]) (by simp [SDB.headed])
  | loaded bytes idle found magic sound ran =>
    simp only [ran,Outcome.done.injEq,true_and] at ok
    have empty : s.control.stage = .empty := by simp [Session.control,Session.stage,idle]
    have loaded : t.control.stage = .loaded := by simp [← ok,Session.control,Session.stage,SDB.loads]
    have kept : t.sdb.addrList = s.sdb.addrList := by simp [← ok,SDB.loads,SDB.headed]
    refine ⟨?_,breaks_congr kept,.inr ⟨empty,loaded⟩⟩
    rw [empty,loaded]
    simp [Action.turns]
  | faults bytes u idle found magic faults opened child ran => simp [ran] at ok

theorem start_steps (ok : (start w).run s = .done () t) : s.control.Steps .start t.control := by
  obtain ⟨other,same⟩ | ⟨loaded,pid,c,m,_,_,sdb,_,process⟩ := start_done w s t ok
  · refine steps_same same ?_ rfl
    have idle : s.control.stage ≠ .loaded := by
      simp only [Session.control,Session.stage]
      cases state : s.sdb.state with
      | notLoaded => simp
      | loaded => exact absurd state other
      | running =>
        dsimp only
        split <;> simp
    cases stage : s.control.stage <;> simp_all [Action.turns]
  · have live : t.control.stage = .live :=
      stage_live (c := {c with mem := m}) (by rw [sdb]; rfl) (by rw [process,sdb]; rfl)
    refine ⟨?_,breaks_congr (by rw [sdb]; rfl),.inl (text_congr (by rw [sdb]; rfl))⟩
    rw [live]
    simp [Session.control,Session.stage,loaded,Action.turns]

theorem Effect.kept {clock : Nat} {d e : SDB} {c : Child} {command : Command} {p : Process} {heard : List Report}
    {request : Request} (effect : Effect w clock d c command e p heard) (lets : command.request = some request) :
    e.addrList = d.addrList := by
  cases effect with
  | quiet => rfl
  | resume command request lets mapped time report told e p heard settles => exact settles.frame.2.2
  | setRip => rfl
  | setOther => rfl
  | insert => cases lets
  | erase => cases lets

theorem running_stage (running : s.sdb.state = .running) : s.control.stage = .live ∨ s.control.stage = .dead := by
  cases tracee : s.tracee with
  | none => exact .inr (stage_dead running tracee)
  | some c => exact .inl (stage_live running ((tracee_some s c).mp tracee))

/-- The child is let run. -/
theorem resumed_steps {command : Command} {request : Request} {c : Child} (running : s.sdb.state = .running)
    (live : s.process = .stopped s.sdb.pid c) (lets : command.request = some request) (affects : Affects w s c command t)
    {action : Action ℕ} (edit : s.control.edit action = s.control.breaks)
    (free : action.turns .live = [.loaded,.live,.dead]) : s.control.Steps action t.control := by
  obtain ⟨heard,effect,_⟩ := affects
  refine ⟨?_,(breaks_congr (effect.kept lets)).trans edit.symm,.inl (text_congr effect.frame.1)⟩
  rw [stage_live running live,free]
  have known := effect.loaded running
  cases state : t.sdb.state with
  | notLoaded => exact absurd state known
  | loaded => simp [Session.control,Session.stage,state]
  | running => obtain stage | stage := running_stage state <;> simp [stage]

theorem cont_steps (action : Action ℕ) (edit : s.control.edit action = s.control.breaks)
    (free : action.turns .live = [.loaded,.live,.dead]) (running : s.sdb.state = .running)
    (ok : (cont w fuel).run s = .done () t) : s.control.Steps action t.control := by
  cases tracee : s.tracee with
  | none => exact absurd ok (cont_childless tracee running w fuel t)
  | some c =>
    have live := (tracee_some s c).mp tracee
    exact resumed_steps running live rfl (cont_affects w fuel s t c .cont rfl live running ok) edit free

theorem waits_idle (idle : s.sdb.state ≠ .running) (same : Unchanged s t) : s.control.Steps .resume t.control := by
  refine steps_same same ?_ rfl
  obtain stage | stage := idle_stage idle <;> simp [stage,Action.turns]

theorem run_steps (ok : (Sdb.run w fuel).run s = .done () t) : s.control.Steps .launch t.control := by
  simp only [Sdb.run,bind_run,read_run,andThen_done] at ok
  cases state : s.sdb.state with
  | running =>
    simp only [state,bind_run,debug_run,andThen_done] at ok
    have same : Unchanged s (s.say (.debug s!"program {s.sdb.programName} is already running")) := ⟨rfl,rfl,rfl,rfl⟩
    have steps := cont_steps .launch rfl rfl (same.sdb ▸ state) ok
    rwa [same.control] at steps
  | loaded =>
    simp only [state] at ok
    obtain ⟨_,u,begun,ok⟩ := bind_done _ _ _ _ _ ok
    have started := start_steps begun
    have stage : s.control.stage = .loaded := by simp [Session.control,Session.stage,state]
    have live : u.control.stage = .live := by simpa [stage,Action.turns] using started.stage
    have running : u.sdb.state = .running := (running_iff u).mp (.inl live)
    have resumed := cont_steps .launch rfl rfl running ok
    refine ⟨?_,resumed.breaks.trans started.breaks,?_⟩
    · rw [stage]
      simpa [live,Action.turns] using resumed.stage
    · left
      have same := started.text.resolve_right fun load => by simp [stage] at load
      exact (resumed.text.resolve_right fun load => by simp [live] at load).trans same
  | notLoaded =>
    simp only [state] at ok
    refine steps_same (quiet_debug _ s () t ok) ?_ rfl
    simp [Session.control,Session.stage,state,Action.turns]

theorem set_steps (w : World) {regName : String} {val : Word} (phase : Phase s) (ok : (set regName val).run s = .done () t) :
    s.control.Steps .assign t.control := by
  cases tracee : s.tracee with
  | none => exact absurd ok (set_childless tracee regName val t)
  | some c =>
    have live := (tracee_some s c).mp tracee
    have running := stopped_running phase live
    obtain ⟨heard,effect,_⟩ := set_affects w regName val s t c live ok
    have header := effect.frame.1
    generalize sdb : t.sdb = e at effect
    generalize process : t.process = p at effect
    have stays : Stage.live ∈ (Action.assign : Action ℕ).turns .live := by simp [Action.turns]
    have kept {after : Child} (list : t.sdb.addrList = s.sdb.addrList) (state : t.sdb.state = .running)
        (stopped : t.process = .stopped t.sdb.pid after) : s.control.Steps .assign t.control :=
      steps_live running live state stopped header stays (breaks_congr list)
    cases effect with
    | quiet => exact kept (by rw [sdb]) (by rw [sdb,running]) (by rw [process,sdb])
    | setRip => exact kept (by rw [sdb]) (by rw [sdb]; exact running) (by rw [process,sdb])
    | setOther => exact kept (by rw [sdb]) (by rw [sdb,running]) (by rw [process,sdb])
    | resume _ request lets => cases lets

/-- What one command does, seen from above. -/
theorem perform_steps (phase : Phase s) {command : Command} (ok : (command.perform w fuel).run s = .done () t) :
    s.control.Steps command.action t.control := by
  have looks (same : Unchanged s t) : s.control.Steps .look t.control :=
    steps_same same (by simp [Action.turns]) rfl
  cases command with
  | «break» addr => exact setBreak_steps ok
  | cont =>
    by_cases running : s.sdb.state = .running
    · exact cont_steps _ rfl rfl running ok
    · simp only [Command.perform,cont,bind_run,read_run,andThen_done,if_pos running] at ok
      exact waits_idle running (quiet_debug _ s () t ok)
  | delete id => exact del_steps ok
  | disasm addr => exact looks (quiet_disasm _ _ _ _ _ _ ok)
  | dump addr => exact looks (quiet_dump _ _ _ _ ok)
  | exit => exact absurd ok (quit_never s t)
  | get regName => exact looks (quiet_get _ _ _ _ ok)
  | getregs => exact looks (quiet_getregs _ _ _ ok)
  | help => exact looks (quiet_help _ _ _ ok)
  | list => exact looks (quiet_list _ _ _ ok)
  | load fileName => exact load_steps ok
  | run => exact run_steps ok
  | vmmap => exact looks (quiet_vmmap _ _ _ _ ok)
  | set regName val => exact set_steps w phase ok
  | si =>
    by_cases running : s.sdb.state = .running
    · cases tracee : s.tracee with
      | none => exact absurd ok (si_childless tracee running w fuel t)
      | some c =>
        have live := (tracee_some s c).mp tracee
        exact resumed_steps running live rfl (si_affects w fuel s t c live running ok) rfl rfl
    · cases fuel with
      | zero => simp [Command.perform,si] at ok
      | succ fuel =>
        unfold Command.perform si at ok
        simp only [bind_run,read_run,andThen_done,if_pos running] at ok
        exact waits_idle running (quiet_debug _ s () t ok)
  | start => exact start_steps ok

end Steps

/-! Whole sessions. -/

theorem created_control (elf sect : Record) (name : String) :
    (controller ℕ).initial (Session.create elf sect name).control :=
  ⟨rfl,Finset.eq_empty_of_forall_notMem fun n listed => by
    obtain ⟨a,member,_⟩ := (mem_breaks _ n).mp listed
    exact Std.ExtTreeMap.not_mem_empty member⟩

theorem run_controlled {w : World} {length : Nat} {states : Nat → Session} {labels : Nat → Nat × Command}
    (run : Run (debugger w) (fun _ _ => True) length states labels) :
    Run (controller ℕ) (fun _ _ => True) length (fun k => (states k).control) fun k => (labels k).2.action := by
  refine ⟨?_,?_,fun _ _ => trivial⟩
  · obtain ⟨elf,sect,name,fresh⟩ := run.first
    rw [fresh]
    exact created_control elf sect name
  · intro k bound
    exact perform_steps (reachable_phase (run.guarded (by omega))) (run.moved k bound)

/-- Every session is a run of the control, and list prints its breakpoints in their order. -/
theorem sessions_controlled (w : World) (length : Nat) (states : Nat → Session) (labels : Nat → Nat × Command)
    (run : Run (debugger w) (fun _ _ => True) length states labels) :
    Run (controller ℕ) (fun _ _ => True) length (fun k => (states k).control) (fun k => (labels k).2.action) ∧
      ∀ k ≤ length, (states k).control.Sound ∧ ∃ addrs : List Word,
        list.run (states k) = .done () {states k with out := (states k).out ++ rowsOf addrs} ∧
          addrs.map BitVec.toNat = (states k).control.breaks.sort := by
  have controlled := run_controlled run
  refine ⟨controlled,fun k bound => ⟨run_sound controlled bound,keys (states k).sdb.addrList,?_,?_⟩⟩
  · exact list_prints (states k)
  · exact (breaks_sorted (states k)).symm

/-- Between two prompts without a delete all breakpoints are kept, over every exit, crash and restart, and new
ones are those that break has placed in the text of a running program. -/
theorem breakpoints_survive (w : World) (length : Nat) (states : Nat → Session) (labels : Nat → Nat × Command)
    (run : Run (debugger w) (fun _ _ => True) length states labels) (i j : Nat) (order : i ≤ j) (bound : j ≤ length)
    (kept : ∀ n, i ≤ n → n < j → ∀ id, (labels n).2 ≠ .delete id) (addr : Word) :
    addr ∈ (states j).sdb.addrList ↔ addr ∈ (states i).sdb.addrList ∨ ∃ n, i ≤ n ∧ n < j ∧
      (labels n).2 = .break addr ∧ (states n).sdb.state = .running ∧ (states n).sdb.inText addr = true := by
  have removes (command : Command) (k : Int) (action : command.action = .remove k) : command = .delete k := by
    cases command <;> cases action
    rfl
  have places (command : Command) (action : command.action = .place addr.toNat) : command = .break addr := by
    cases command <;> simp only [Command.action,reduceCtorEq,Action.place.injEq] at action
    rw [BitVec.eq_of_toNat_eq action]
  have grows := run_grows (run_controlled run) order bound
    (fun n low high k action => kept n low high k (removes _ k action)) addr.toNat
  simp only [listed_breaks,running_iff,text_control] at grows
  rw [grows]
  refine or_congr_right (exists_congr fun n => and_congr_right fun _ => and_congr_right fun _ => and_congr_left fun _ => ?_)
  exact ⟨places _,fun same => by rw [same]; rfl⟩

/-! A program that exits when it is continued. -/

def breakThenRun : List Command := [.load "a.out",.start,.break 0x1004,.cont,.start]

def breakRun (k : Nat) : Session := sampleSession exiting (breakThenRun.take k)

theorem breakRun_run : Run (debugger exiting) (fun _ _ => True) 5 breakRun fun k => (9,breakThenRun.getD k .help) := by
  refine ⟨⟨_,_,_,rfl⟩,?_,fun _ _ => trivial⟩
  intro k bound
  interval_cases k <;> rfl

theorem sessions_controlled_break : Run (controller ℕ) (fun _ _ => True) 5 (fun k => (breakRun k).control)
      (fun k => (breakThenRun.getD k .help).action) ∧
    ∀ k ≤ 5, (breakRun k).control.Sound ∧ ∃ addrs : List Word,
      list.run (breakRun k) = .done () {breakRun k with out := (breakRun k).out ++ rowsOf addrs} ∧
        addrs.map BitVec.toNat = (breakRun k).control.breaks.sort :=
  sessions_controlled exiting 5 breakRun _ breakRun_run

theorem breakpoints_survive_exit : 0x1004#64 ∈ (breakRun 5).sdb.addrList := by
  refine (breakpoints_survive exiting 5 breakRun _ breakRun_run 2 5 (by decide) le_rfl ?_ 0x1004).mpr
    (.inr ⟨2,le_rfl,by decide,rfl,rfl,rfl⟩)
  intro n low high id
  interval_cases n <;> simp [breakThenRun]

end Unixprog.Sdb
