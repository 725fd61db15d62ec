import Unixprog.Sdb.Lifecycle

/-! The three tables of register names: what getregs shows, what get reads and
what set writes. -/
namespace Unixprog.Sdb
open Words Runs

/-- What getregs prints, under the names that set and get go by. -/
def Registers.shown (regs : Registers) : List (String × Word) := [
  ("rax",regs.rax),("rbx",regs.rbx),("rcx",regs.rcx),("rdx",regs.rdx),
  ("r8",regs.r8),("r9",regs.r9),("r10",regs.r10),("r11",regs.r11),
  ("r12",regs.r12),("r13",regs.r13),("r14",regs.r14),("r15",regs.r15),
  ("rdi",regs.rdi),("rsi",regs.rsi),("rbp",regs.rbp),("rsp",regs.rsp),
  ("rip",regs.rip),("flags",regs.eflags)]

def shownNames : List String :=
  ["rax","rbx","rcx","rdx","r8","r9","r10","r11","r12","r13","r14","r15","rdi","rsi","rbp","rsp","rip","flags"]

def assign (name : String) (value : Word) (table : List (String × Word)) : List (String × Word) :=
  table.map fun entry => if entry.1 = name then (name,value) else entry

theorem shown_names (regs : Registers) : regs.shown.map Prod.fst = shownNames := rfl

theorem lookup_assign (name other : String) (value : Word) (table : List (String × Word)) :
    (assign name value table).lookup other =
      if other = name then (table.lookup other).map fun _ => value else table.lookup other := by
  induction table with
  | nil => simp [assign]
  | cons entry table ih =>
    obtain ⟨key,old⟩ := entry
    unfold assign at ih ⊢
    by_cases here : other = key
    · subst here
      by_cases named : other = name <;> simp [named]
    · have missed : (other == key) = false := by simpa using here
      by_cases named : key = name
      · subst named
        simpa [List.lookup_cons,missed,here] using ih
      · simpa [List.lookup_cons,missed,named] using ih

theorem lookup_none {name : String} {table : List (String × Word)} (missing : name ∉ table.map Prod.fst) :
    table.lookup name = none := by
  rw [List.lookup_eq_none_iff]
  intro entry member
  have differs : name ≠ entry.1 := fun same => missing (same ▸ List.mem_map_of_mem member)
  simpa using differs

theorem getReg_shown (regs : Registers) (name : String) (supported : name ≠ "rsi") :
    getReg regs name = regs.shown.lookup name := by
  by_cases known : name ∈ shownNames
  · simp only [shownNames,List.mem_cons,List.not_mem_nil,or_false] at known
    rcases known with rfl | rfl | rfl | rfl | rfl | rfl | rfl | rfl | rfl | rfl | rfl | rfl | rfl | rfl | rfl | rfl |
      rfl | rfl
    all_goals first | rfl | exact absurd rfl supported
  · rw [lookup_none known]
    unfold getReg
    split
    all_goals first | rfl | exact absurd (by decide) known

theorem setReg_shown (regs after : Registers) (value : Word) (name : String)
    (written : setReg regs value name = some after) : after.shown = assign name value regs.shown := by
  unfold setReg at written
  split at written
  all_goals cases written
  all_goals rfl

theorem setReg_known (regs : Registers) (value : Word) (name : String) :
    (setReg regs value name).isSome = true ↔ name ∈ shownNames ∧ name ≠ "rsi" := by
  constructor
  · intro known
    unfold setReg at known
    split at known
    all_goals first | exact ⟨by decide,by decide⟩ | cases known
  · rintro ⟨known,supported⟩
    simp only [shownNames,List.mem_cons,List.not_mem_nil,or_false] at known
    rcases known with rfl | rfl | rfl | rfl | rfl | rfl | rfl | rfl | rfl | rfl | rfl | rfl | rfl | rfl | rfl | rfl |
      rfl | rfl
    all_goals first | rfl | exact absurd rfl supported

/-! What set does to a stopped child and what get and getregs then print. -/

def Session.prints (s : Session) (op : Op Unit) : Option (List Message) :=
  match op.run s with
  | .done _ t => some (t.out.drop s.out.length)
  | _ => none

/-- `after` is what the child is left in by a set that behaves as a lens. -/
structure Lens (name : String) (value : Word) (before after : Session) : Prop where
  reads : name ∈ shownNames → after.prints (get name) = some [.regValue name value]
  others : name ∈ shownNames → ∀ other ∈ shownNames, other ≠ name →
    after.prints (get other) = before.prints (get other)
  table : name ∈ shownNames → ∃ old new, before.prints getregs = some [.regTable old] ∧
    after.prints getregs = some [.regTable new] ∧ new.shown = assign name value old.shown
  unknown : name ∉ shownNames → after.tracee.map (·.regs) = before.tracee.map (·.regs)

def SetsLikeLens (w : World) (s : Session) (name : String) (value : Word) : Prop :=
  ∀ fuel, ∃ t, ((Command.set name value).perform w fuel).run s = .done () t ∧ Lens name value s t

section Live
variable {s : Session} {c : Child}

theorem getregs_prints (live : s.process = .stopped s.sdb.pid c) (running : s.sdb.state = .running) :
    s.prints getregs = some [.regTable c.regs] := by
  simp only [Session.prints,getregs,bind_run,read_run,andThen_done,running,ne_eq,not_true_eq_false,if_false,
    getRegs_live live,say_run,Session.say,List.drop_left]

theorem get_prints (live : s.process = .stopped s.sdb.pid c) (running : s.sdb.state = .running) (name : String) :
    s.prints (get name) = some ((getReg c.regs name).map fun value => Message.regValue name value).toList := by
  simp only [Session.prints,get,bind_run,read_run,andThen_done,running,ne_eq,not_true_eq_false,if_false,
    getRegs_live live]
  cases getReg c.regs name with
  | none => simp
  | some value => simp [Session.say]

theorem set_unknown (live : s.process = .stopped s.sdb.pid c) (name : String) (value : Word)
    (unknown : setReg c.regs value name = none) : (set name value).run s = .done () s := by
  simp only [set,bind_run,getRegs_live live,andThen_done,unknown,pure_run]

theorem set_known (live : s.process = .stopped s.sdb.pid c) (name : String) (value : Word) (regs : Registers)
    (known : setReg c.regs value name = some regs) :
    ∃ t, (set name value).run s = .done () t ∧ t.sdb.state = s.sdb.state ∧
      t.process = .stopped t.sdb.pid {c with regs := regs} := by
  simp only [set,bind_run,getRegs_live live,andThen_done,known]
  split
  next pointer =>
    simp only [bind_run,onSdb_run,andThen_done]
    rw [setRegs_live (c := c) ?stopped]
    case stopped => exact live
    exact ⟨_,rfl,rfl,rfl⟩
  next other =>
    simp only [bind_run,andThen_done,setRegs_live live]
    exact ⟨_,rfl,rfl,rfl⟩

end Live

/-- get and set know every register of getregs but rsi. -/
theorem set_lens_iff (w : World) (s : Session) (reached : Reachable (debugger w) s) (c : Child)
    (live : s.process = .stopped s.sdb.pid c) (name : String) (value : Word) :
    SetsLikeLens w s name value ↔ name ≠ "rsi" := by
  have running := stopped_running (reachable_phase reached) live
  constructor
  · rintro lens rfl
    obtain ⟨t,done,lens⟩ := lens 0
    have same : t = s := by
      have skipped := set_unknown live "rsi" value rfl
      rw [Command.perform,skipped] at done
      cases done
      rfl
    have read := lens.reads (by decide)
    rw [same,get_prints live running] at read
    cases read
  · intro supported fuel
    cases written : setReg c.regs value name with
    | none =>
      have outside : name ∉ shownNames := by
        intro known
        have some := (setReg_known c.regs value name).mpr ⟨known,supported⟩
        rw [written] at some
        cases some
      exact ⟨s,set_unknown live name value written,fun known => absurd known outside,
        fun known => absurd known outside,fun known => absurd known outside,fun _ => rfl⟩
    | some regs =>
      have known := ((setReg_known c.regs value name).mp (by rw [written]; rfl)).1
      obtain ⟨t,done,state,stopped⟩ := set_known live name value regs written
      have table := setReg_shown c.regs regs value name written
      refine ⟨t,done,fun _ => ?reads,fun _ other shown differs => ?others,fun _ => ?table,fun outside =>
        absurd known outside⟩
      case reads =>
        have held : (c.regs.shown.lookup name).isSome = true := by
          rw [Option.isSome_iff_ne_none]
          intro missing
          rw [List.lookup_eq_none_iff] at missing
          obtain ⟨entry,member,rfl⟩ := List.mem_map.mp (shown_names c.regs ▸ known)
          simpa using missing entry member
        obtain ⟨old,held⟩ := Option.isSome_iff_exists.mp held
        rw [get_prints stopped (state.trans running),getReg_shown regs name supported,table,lookup_assign,if_pos rfl,held]
        rfl
      case others =>
        rw [get_prints stopped (state.trans running),get_prints live running]
        by_cases missing : other = "rsi"
        · subst missing
          rfl
        · rw [getReg_shown _ _ missing,getReg_shown _ _ missing,table,lookup_assign,if_neg differs]
      case table =>
        exact ⟨c.regs,regs,getregs_prints live running,getregs_prints stopped (state.trans running),table⟩

theorem set_lens_iff_rax :
    SetsLikeLens crashing (sampleSession crashing [.load "a.out",.start]) "rax" 5 :=
  (set_lens_iff crashing _ (sample_reachable _ _) _ rfl "rax" 5).mpr (by decide)

theorem set_rsi_lost : Reachable (debugger crashing) (sampleSession crashing [.load "a.out",.start]) ∧
    (sampleSession crashing [.load "a.out",.start]).tracee.isSome = true ∧ "rsi" ∈ shownNames ∧
    ¬ SetsLikeLens crashing (sampleSession crashing [.load "a.out",.start]) "rsi" 1 := by
  refine ⟨sample_reachable _ _,rfl,by decide,?_⟩
  intro lens
  obtain ⟨t,done,lens⟩ := lens 0
  have read := lens.reads (by decide)
  cases done
  cases read

end Unixprog.Sdb
