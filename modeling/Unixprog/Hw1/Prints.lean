import Unixprog.Hw1.Listing

/-! What print_pinfo does: it hands the shared record over, leaves it as it is, and
prints it if the filters let it pass. -/
namespace Unixprog.Hw1
open CStrings Aborts

@[simp] theorem complain_run (complaint : Complaint) (s : Scan) :
    (complain complaint).run s = .returned () {s with complaints := s.complaints ++ [complaint]} := rfl

@[simp] theorem setInfo_run (f : Info → Info) (s : Scan) :
    (setInfo f).run s = .returned () {s with p := f s.p} := rfl

@[simp] theorem exit_run {α : Type} (code : Nat) (s : Scan) : (exit code : Op α).run s = .stopped (.exited code) s := rfl

@[simp] theorem undefined_run {α : Type} (s : Scan) : (undefined : Op α).run s = .stopped .undefined s := rfl

@[simp] theorem error_run {α : Type} (what : String) (s : Scan) : (error what : Op α).run s =
    .stopped (.exited 1) {s with complaints := s.complaints ++ [.failTo what]} := rfl

theorem within_fits {size : Nat} {text : Str} (fits : text.length < size) (s : Scan) :
    (within size text).run s = .returned text s := by
  rw [within,if_pos fits]
  rfl

theorem within_over {size : Nat} {text : Str} (long : ¬ text.length < size) (s : Scan) :
    (within size text).run s = .stopped .undefined s := by
  rw [within,if_neg long]
  rfl

theorem cutMarker_length (old : Nat) (name : Str) : (cutMarker old name).length ≤ name.length :=
  List.length_take_le' _ _

/-- regcomp accepts the patterns of the filters. -/
def Options.Compile (w : World) (o : Options) : Prop :=
  (∀ pattern, o.commRegex = some pattern → (w.regcomp pattern).isSome) ∧
    ∀ pattern, o.fileRegex = some pattern → (w.regcomp pattern).isSome

def admits (w : World) (pattern : Option Str) (text : Str) : Bool :=
  (pattern.bind w.regcomp).all fun regexec => regexec text

def passes (w : World) (o : Options) (p : Info) : Bool :=
  !(o.typeFilter.isSome && o.typeFilter ≠ some p.type) && admits w o.commRegex p.procName &&
    admits w o.fileRegex p.name

section Prints
variable {w : World} {o : Options} {s : Scan}

theorem matching_run {pattern : Option Str} {text : Str} (read : Op Str)
    (compile : ∀ p, pattern = some p → (w.regcomp p).isSome) (reads : read.run s = .returned text s) :
    (matching w pattern read).run s = .returned (admits w pattern text) s := by
  cases pattern with
  | none => rfl
  | some pattern =>
    obtain ⟨regexec,compiled⟩ := Option.isSome_iff_exists.mp (compile pattern rfl)
    simp [matching,admits,compiled,reads]

/-- A record whose name is terminated is handed over and printed if it passes the filters. -/
theorem printPinfo_run (compile : o.Compile w) (fits : s.p.name.length < MAX_NAME_SIZE) :
    (printPinfo w o).run s = .returned () {s with
      handed := s.handed ++ [s.p]
      rows := s.rows ++ if passes w o s.p then [row s.p] else []} := by
  have comm (t : Scan) := matching_run (s := t) (pure s.p.procName) compile.1 rfl
  have file (t : Scan) := matching_run (s := t) (within MAX_NAME_SIZE s.p.name) compile.2 (within_fits fits t)
  simp only [printPinfo,bind_run,change_run,current_run,andThen_returned,ite_run]
  by_cases typed : o.typeFilter.isSome ∧ o.typeFilter ≠ some s.p.type
  · rw [if_pos typed]
    simp [passes,typed.1,typed.2]
  rw [if_neg typed]
  have free : ¬ o.typeFilter = none → o.typeFilter = some s.p.type := by
    intro filtered
    by_contra other
    exact typed ⟨Option.isSome_iff_ne_none.mpr filtered,other⟩
  simp only [comm,andThen_returned]
  cases byComm : admits w o.commRegex s.p.procName with
  | false => simp [passes,byComm]
  | true =>
    simp only [Bool.not_true,Bool.false_eq_true,if_false,bind_run,file,andThen_returned]
    cases byFile : admits w o.fileRegex s.p.name with
    | false => simp [passes,byFile]
    | true => simpa [passes,byComm,byFile,within_fits fits] using free

end Prints

/-! Whatever the filters and the name are. -/

/-- Nothing is handed over or printed, and the record is the same. -/
def Same (s t : Scan) : Prop := t.p = s.p ∧ t.handed = s.handed ∧ t.rows = s.rows

theorem same_refl (s : Scan) : Same s s := ⟨rfl,rfl,rfl⟩

theorem same_trans (s t u : Scan) (one : Same s t) (two : Same t u) : Same s u :=
  ⟨two.1.trans one.1,two.2.1.trans one.2.1,two.2.2.trans one.2.2⟩

abbrev Calm {α : Type} (p : Op α) : Prop := Keeps Same (fun _ => True) p fun _ _ => True

theorem calm_error {α : Type} (what : String) : Calm (error what : Op α) :=
  ⟨fun _ _ => ⟨rfl,rfl,rfl⟩,fun _ _ _ _ _ => trivial⟩

theorem calm_within (size : Nat) (text : Str) : Calm (within size text) :=
  keeps_ite _ (fun _ => keeps_pure same_refl _ fun _ _ => trivial) fun _ => keeps_abort same_refl _

theorem calm_matching (w : World) (pattern : Option Str) (read : Op Str) (reads : Calm read) :
    Calm (matching w pattern read) := by
  cases pattern with
  | none => exact keeps_pure same_refl _ fun _ _ => trivial
  | some pattern =>
    simp only [matching]
    cases w.regcomp pattern with
    | none => exact calm_error _
    | some regexec => exact keeps_bind same_trans reads fun _ => keeps_pure same_refl _ fun _ _ => trivial

/-- What print_pinfo does behind the filters decides what it leaves. -/
theorem printPinfo_keeps {R : Scan → Scan → Prop} (w : World) (o : Options) (s : Scan) (calmly : ∀ s t, Same s t → R s t)
    (trans : ∀ s t u, R s t → R t u → R s u) (prints : Keeps R (fun _ => True)
      (within MAX_NAME_SIZE s.p.name >>= fun _ => (change fun t => {t with rows := t.rows ++ [row t.p]} : Op Unit))
      fun _ _ => True) : R {s with handed := s.handed ++ [s.p]} ((printPinfo w o).run s).state := by
  have silent : Keeps R (fun _ => True) (pure () : Op Unit) fun _ _ => True :=
    keeps_pure (fun s => calmly s s (same_refl s)) () fun _ _ => trivial
  have comm := (calm_matching w o.commRegex (pure s.p.procName) (keeps_pure same_refl _ fun _ _ => trivial)).relax calmly
  have file := (calm_matching w o.fileRegex _ (calm_within MAX_NAME_SIZE s.p.name)).relax calmly
  have all : Keeps R (fun _ => True) (if o.typeFilter.isSome ∧ o.typeFilter ≠ some s.p.type then pure ()
      else matching w o.commRegex (pure s.p.procName) >>= fun byComm => if (!byComm) = true then pure ()
      else matching w o.fileRegex (within MAX_NAME_SIZE s.p.name) >>= fun byFile => if (!byFile) = true then pure ()
      else within MAX_NAME_SIZE s.p.name >>= fun _ =>
        (change fun t => {t with rows := t.rows ++ [row t.p]} : Op Unit)) fun _ _ => True :=
    keeps_ite _ (fun _ => silent) fun _ => keeps_bind trans comm fun _ => keeps_ite _ (fun _ => silent)
      fun _ => keeps_bind trans file fun _ => keeps_ite _ (fun _ => silent) fun _ => prints
  exact all.ends {s with handed := s.handed ++ [s.p]} trivial

theorem printPinfo_hands (w : World) (o : Options) (s : Scan) :
    ((printPinfo w o).run s).state.p = s.p ∧ ((printPinfo w o).run s).state.handed = s.handed ++ [s.p] := by
  refine printPinfo_keeps (R := fun s t => t.p = s.p ∧ t.handed = s.handed) w o s (fun _ _ same => ⟨same.1,same.2.1⟩)
    (fun _ _ _ one two => ⟨two.1.trans one.1,two.2.trans one.2⟩) ?_
  refine keeps_bind (fun _ _ _ one two => ⟨two.1.trans one.1,two.2.trans one.2⟩)
    ((calm_within _ _).relax fun _ _ same => ⟨same.1,same.2.1⟩) fun _ => ?_
  exact keeps_change _ (fun _ _ => ⟨rfl,rfl⟩) fun _ _ => trivial

/-- Whether a record gets printed: its name ends, and it passes the filters. -/
def printed (w : World) (o : Options) (p : Info) : Bool := p.name.length < MAX_NAME_SIZE && passes w o p

theorem printPinfo_rows {w : World} {o : Options} (compile : o.Compile w) (s : Scan) :
    ((printPinfo w o).run s).state.rows = s.rows ++ ([s.p].filter (printed w o)).map row := by
  by_cases fits : s.p.name.length < MAX_NAME_SIZE
  · rw [printPinfo_run compile fits]
    cases passed : passes w o s.p <;> simp [printed,fits,passed]
  · have still : Same {s with handed := s.handed ++ [s.p]} ((printPinfo w o).run s).state := by
      refine printPinfo_keeps w o s (fun _ _ same => same) same_trans ?_
      rw [within,if_neg fits]
      exact keeps_abort same_refl _
    rw [still.2.2]
    simp [printed,fits]

end Unixprog.Hw1
