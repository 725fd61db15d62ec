import Unixprog.Library.Mirrors
import Unixprog.Hw1.Links

/-! The filters only select: with them main prints those rows of the whole listing that pass. -/
namespace Unixprog.Hw1
open CStrings Aborts

/-- A listing without filters beside one with them, from the same start. -/
structure Thinned (w : World) (o : Options) (base s t : Scan) : Prop where
  p : t.p = s.p
  handed : t.handed = s.handed
  complaints : t.complaints = s.complaints
  rows : ∃ listed, s.handed = base.handed ++ listed ∧ s.rows = base.rows ++ listed.map row ∧
    t.rows = base.rows ++ (listed.filter (passes w o)).map row

def Stop.undefines (why : Stop) : Prop := why = .undefined

abbrev Thins (w : World) (o : Options) (base : Scan) {α : Type} (p q : Op α) : Prop :=
  Mirrors (Thinned w o base) Stop.undefines p q

section Rules
variable {w : World} {o : Options} {base : Scan}

theorem thinned_refl (s : Scan) : Thinned w o s s s := ⟨rfl,rfl,rfl,[],by simp,by simp,by simp⟩

theorem Thinned.sets {s t : Scan} (thinned : Thinned w o base s t) (f : Info → Info) :
    Thinned w o base {s with p := f s.p} {t with p := f t.p} :=
  ⟨congrArg f thinned.p,thinned.handed,thinned.complaints,thinned.rows⟩

theorem thins_setInfo (f : Info → Info) : Thins w o base (setInfo f) (setInfo f) :=
  mirrors_change fun _ _ thinned => thinned.sets f

theorem thins_complain (complaint : Complaint) : Thins w o base (complain complaint) (complain complaint) :=
  mirrors_change fun s t thinned => ⟨thinned.p,thinned.handed,by rw [thinned.complaints],thinned.rows⟩

theorem thins_error {α : Type} (what : String) : Thins w o base (error what : Op α) (error what) :=
  mirrors_bind (thins_complain _) fun _ => mirrors_abort _

theorem thins_undefined {α : Type} : Thins w o base (undefined : Op α) undefined := mirrors_abort _

theorem thins_within {β : Type} (size : Nat) (text : Str) {next next' : Str → Op β}
    (rest : Thins w o base (next text) (next' text)) :
    Thins w o base (within size text >>= next) (within size text >>= next') := by
  unfold within
  split
  next => exact rest
  next => exact mirrors_abort _

theorem thins_current {β : Type} {next : Scan → Op β} (rest : ∀ s, Thins w o base (next s) (next s))
    (reads : ∀ s t : Scan, t.p = s.p → next t = next s) : Thins w o base (current >>= next) (current >>= next) :=
  mirrors_current fun s t thinned => by
    rw [reads s t thinned.p]
    exact rest s s t thinned

theorem thins_printPinfo (compile : o.Compile w) : Thins w o base (printPinfo w noFilters) (printPinfo w o) := by
  intro s t thinned
  by_cases fits : s.p.name.length < MAX_NAME_SIZE
  · have fits' : t.p.name.length < MAX_NAME_SIZE := thinned.p ▸ fits
    rw [printPinfo_run (noFilters_compile w) fits,printPinfo_run compile fits']
    obtain ⟨listed,handed,whole,chosen⟩ := thinned.rows
    refine .returned () ⟨thinned.p,by rw [thinned.handed,thinned.p],thinned.complaints,listed ++ [s.p],?_,?_,?_⟩
    · rw [handed,List.append_assoc]
    · rw [passes_unfiltered,if_pos rfl,whole,List.map_append,List.append_assoc,List.map_singleton]
    · rw [chosen,thinned.p,List.filter_append,List.map_append,List.append_assoc]
      cases passed : passes w o s.p with
      | false => simp [passed]
      | true => simp [passed]
  · rw [printPinfo_overruns fits]
    exact .excused (show Stop.undefines .undefined from rfl) _ _

/-! Each function beside itself. -/

section Functions
variable (compile : o.Compile w)

theorem thins_getUserName (uid : BitVec 32) : Thins w o base (getUserName w uid) (getUserName w uid) := by
  unfold getUserName
  cases w.getpwuid uid with
  | none => exact thins_complain _
  | some pwName => exact thins_within _ _ (thins_setInfo _)

theorem thins_getMeta (link : Link) (path : Str) : Thins w o base (getMeta link path) (getMeta link path) := by
  unfold getMeta
  cases link.stat with
  | denied => exact thins_setInfo _
  | failed => exact mirrors_pure _
  | ok buffer =>
    refine mirrors_bind (thins_setInfo _) fun _ => ?_
    cases link.target with
    | none => exact thins_error _
    | some target => exact thins_setInfo _

theorem thins_memName (token : Option Str) : Thins w o base (memName token) (memName token) := by
  unfold memName
  cases token with
  | none => exact thins_error _
  | some token =>
    refine thins_within _ _ (mirrors_ite _ (thins_error _) (thins_current (fun s => mirrors_ite _ ?_ ?_) ?_))
    · exact thins_within _ _ (thins_setInfo _)
    · exact thins_setInfo _
    · intro s t same
      rw [same]

include compile

theorem thins_readLinks (x : Process) : Thins w o base (readLinks w noFilters x) (readLinks w o x) := by
  have shown : Thins w o base (printPinfo w noFilters) (printPinfo w o) := thins_printPinfo compile
  unfold readLinks
  refine mirrors_bind (thins_setInfo _) fun _ => mirrors_bind (thins_getMeta _ _) fun _ => mirrors_bind shown fun _ => ?_
  refine mirrors_bind (thins_getMeta _ _) fun _ => mirrors_bind (thins_setInfo _) fun _ => mirrors_bind shown fun _ => ?_
  exact mirrors_bind (thins_getMeta _ _) fun _ => mirrors_bind (thins_setInfo _) fun _ => shown

theorem thins_memLine (dict : List Int) (line : Str) :
    Thins w o base (memLine w noFilters dict line) (memLine w o dict line) := by
  unfold memLine
  refine mirrors_ite _ (mirrors_pure _) (mirrors_bind (thins_setInfo _) fun _ => ?_)
  refine mirrors_bind (thins_memName _) fun _ => mirrors_bind (thins_printPinfo compile) fun _ => mirrors_pure _

theorem thins_memLines (dict : List Int) (lines : List Str) :
    Thins w o base (memLines w noFilters dict lines) (memLines w o dict lines) := by
  induction lines generalizing dict with
  | nil => exact mirrors_pure _
  | cons line rest ih => exact mirrors_bind (thins_memLine compile dict line) fun dict => ih dict

theorem thins_readMem (x : Process) : Thins w o base (readMem w noFilters x) (readMem w o x) := by
  refine mirrors_bind (thins_setInfo _) fun _ => mirrors_current fun s t thinned => ?_
  rw [thinned.p]
  cases x.maps with
  | none => exact mirrors_pure _ _ _ thinned
  | some lines => exact thins_memLines compile _ _ _ _ thinned

theorem thins_fdEntry (e : Entry) : Thins w o base (fdEntry w noFilters e) (fdEntry w o e) := by
  have named : Thins w o base (fdName e.target) (fdName e.target) := by
    unfold fdName
    refine mirrors_bind (thins_setInfo _) fun _ => ?_
    cases e.target with
    | none => exact thins_error _
    | some target => exact thins_within _ _ (mirrors_ite _ thins_undefined (thins_setInfo _))
  have described (buffer : Stat) : Thins w o base (fdMeta e.name buffer) (fdMeta e.name buffer) := by
    refine thins_within _ _ (mirrors_bind (thins_setInfo _) fun _ => ?_)
    cases fdType buffer.mode with
    | none => exact thins_setInfo _
    | some type => exact thins_setInfo _
  have access (mode : BitVec 32) : Thins w o base (fdAccess mode) (fdAccess mode) := by
    unfold fdAccess
    cases accessSuffix mode with
    | none => exact thins_error _
    | some suffix =>
      refine thins_current (fun s => thins_within _ _ (thins_setInfo _)) ?_
      intro s t same
      rw [same]
  unfold fdEntry
  refine mirrors_bind named fun _ => ?_
  cases e.stat with
  | none => exact mirrors_pure _
  | some buffer =>
    refine mirrors_bind (described buffer) fun _ => ?_
    cases e.lstat with
    | none => exact mirrors_pure _
    | some link =>
      exact mirrors_bind (access _) fun _ => mirrors_bind (thins_printPinfo compile) fun _ => mirrors_pure _

theorem thins_fdEntries (entries : List Entry) :
    Thins w o base (fdEntries w noFilters entries) (fdEntries w o entries) := by
  induction entries with
  | nil => exact mirrors_pure _
  | cons e rest ih =>
    refine mirrors_ite _ (mirrors_bind (thins_fdEntry compile e) fun more => ?_) ih
    exact mirrors_ite _ ih (mirrors_pure _)

theorem thins_readFd (x : Process) : Thins w o base (readFd w noFilters x) (readFd w o x) := by
  unfold readFd
  cases x.fds with
  | none => exact mirrors_bind (thins_setInfo _) fun _ => thins_printPinfo compile
  | some dir => exact mirrors_ite _ (thins_error _) (thins_fdEntries compile _)

theorem thins_readInfo (x : Process) : Thins w o base (readInfo w noFilters x) (readInfo w o x) := by
  unfold readInfo
  cases x.stat with
  | none => exact mirrors_pure _
  | some buffer =>
    refine mirrors_bind (thins_getUserName _) fun _ => ?_
    cases x.statFile with
    | none => exact mirrors_pure _
    | some text =>
      have read : Thins w o base (readStat text) (readStat text) := by
        unfold readStat
        cases scanStat text with
        | none => exact thins_error _
        | some found =>
          refine mirrors_bind (thins_setInfo _) fun _ => thins_within _ _ ?_
          exact mirrors_ite _ thins_undefined (thins_setInfo _)
      refine mirrors_bind read fun _ => mirrors_bind (thins_readLinks compile x) fun _ => ?_
      exact mirrors_bind (thins_readMem compile x) fun _ => thins_readFd compile x

theorem thins_listProcesses (processes : List Process) :
    Thins w o base (listProcesses w noFilters processes) (listProcesses w o processes) := by
  induction processes with
  | nil => exact mirrors_pure _
  | cons x rest ih => exact mirrors_ite _ (mirrors_bind (thins_readInfo compile x) fun _ => ih) ih

end Functions

end Rules

/-! The command line. Of each filter the last one given counts. -/

def Opt.set (o : Options) : Opt → Options
  | .c optarg => {o with commRegex := some optarg}
  | .t optarg => {o with typeFilter := some optarg}
  | .f optarg => {o with fileRegex := some optarg}
  | .other => o

def filtersOf (opts : List Opt) : Options := opts.foldl Opt.set noFilters

theorem parseOptions_known {opts : List Opt} (known : Opt.other ∉ opts) (o : Options) :
    parseOptions o opts = pure (opts.foldl Opt.set o) := by
  induction opts generalizing o with
  | nil => rfl
  | cons opt rest ih =>
    obtain ⟨first,others⟩ : .other ≠ opt ∧ Opt.other ∉ rest := by simpa using known
    cases opt with
    | other => exact absurd rfl first
    | _ => exact ih others _

theorem main_lists (w : World) {opts : List Opt} (known : Opt.other ∉ opts)
    (type : ∀ t, (filtersOf opts).typeFilter = some t → t ∈ typeNames) (s : Scan) :
    (main w opts 0).run s = match w.processes with
      | none => .stopped .undefined {s with rows := s.rows ++ [header]}
      | some processes => (listProcesses w (filtersOf opts) processes).run {s with rows := s.rows ++ [header]} := by
  have valid : (filtersOf opts).typeFilter.any (· ∉ typeNames) = false := by
    cases found : (filtersOf opts).typeFilter with
    | none => rfl
    | some t => simp [type t found]
  have parsed : parseOptions ⟨none,none,none⟩ opts = pure (filtersOf opts) := parseOptions_known known _
  simp only [main,listing,bind_run,parsed,pure_run,andThen_returned,lt_irrefl,if_false,valid,Bool.false_eq_true,
    change_run]
  cases w.processes with
  | none => rfl
  | some processes => rfl

/-- Why a run stopped, `none` if it came to its end. -/
def ending : Result Scan Stop Unit → Option Stop
  | .returned _ _ => none
  | .stopped why _ => some why

/-- The second run ends as the first one, and prints of its rows those that pass. -/
structure Selects (w : World) (o : Options) (s : Scan) (whole chosen : Result Scan Stop Unit) : Prop where
  ends : ending chosen = ending whole
  complaints : chosen.state.complaints = whole.state.complaints
  rows : ∃ listed : List Info, whole.state.rows = s.rows ++ header::listed.map row ∧
    chosen.state.rows = s.rows ++ header::(listed.filter (passes w o)).map row

theorem filters_select (w : World) (opts : List Opt) (s : Scan) (known : Opt.other ∉ opts)
    (type : ∀ t, (filtersOf opts).typeFilter = some t → t ∈ typeNames) (compile : (filtersOf opts).Compile w)
    (defined : ending ((main w [] 0).run s) ≠ some .undefined) :
    Selects w (filtersOf opts) s ((main w [] 0).run s) ((main w opts 0).run s) := by
  have plain := main_lists w (List.not_mem_nil : Opt.other ∉ []) (fun t found => by cases found) s
  have chosen := main_lists w known type s
  rw [plain] at defined
  rw [plain,chosen]
  cases entries : w.processes with
  | none =>
    rw [entries] at defined
    exact absurd rfl defined
  | some processes =>
    rw [entries] at defined
    dsimp only at defined ⊢
    have thins := thins_listProcesses compile processes _ _ (thinned_refl {s with rows := s.rows ++ [header]})
    change Matches _ _ ((listProcesses w (filtersOf []) processes).run _) _ at thins
    generalize (listProcesses w (filtersOf []) processes).run _ = ran at thins defined
    generalize (listProcesses w (filtersOf opts) processes).run _ = ran' at thins
    have selected {u v : Scan} (thinned : Thinned w (filtersOf opts) {s with rows := s.rows ++ [header]} u v) :
        ∃ listed : List Info, u.rows = s.rows ++ header::listed.map row ∧
          v.rows = s.rows ++ header::(listed.filter (passes w (filtersOf opts))).map row := by
      obtain ⟨listed,_,whole,part⟩ := thinned.rows
      exact ⟨listed,by simpa using whole,by simpa using part⟩
    cases thins with
    | returned value related => exact ⟨rfl,related.complaints,selected related⟩
    | stopped why related => exact ⟨rfl,related.complaints,selected related⟩
    | excused excuse u other => exact absurd (congrArg Option.some excuse) defined

def oneShell : World := ⟨fun _ => some "root".toList,fun _ => none,some [shell (directory "/a".toList) goneLink]⟩

theorem filters_select_dir : Selects oneShell (filtersOf [.t "DIR".toList]) zeroes ((main oneShell [] 0).run zeroes)
    ((main oneShell [.t "DIR".toList] 0).run zeroes) := by
  refine filters_select oneShell [.t "DIR".toList] zeroes (by simp) ?_ ?_ (by decide)
  · rintro _ ⟨⟩
    decide
  · constructor <;> (intro pattern same; cases same)

end Unixprog.Hw1
