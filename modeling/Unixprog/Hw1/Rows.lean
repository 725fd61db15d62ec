import Unixprog.Hw1.Prints

/-! Which records the functions hand to print_pinfo, whatever they read and whether or
not they return. -/
namespace Unixprog.Hw1
open CStrings Aborts

/-- Every record handed over between the two states has `P`. -/
def Hands (P : Info → Prop) (s t : Scan) : Prop := ∃ new, t.handed = s.handed ++ new ∧ ∀ p ∈ new, P p

theorem hands_refl (P : Info → Prop) (s : Scan) : Hands P s s := ⟨[],by simp,by simp⟩

theorem hands_trans (P : Info → Prop) (s t u : Scan) (one : Hands P s t) (two : Hands P t u) : Hands P s u := by
  obtain ⟨first,same,holds⟩ := one
  obtain ⟨second,behind,further⟩ := two
  refine ⟨first ++ second,by rw [behind,same,List.append_assoc],?_⟩
  intro p member
  rcases List.mem_append.mp member with early | late
  · exact holds p early
  · exact further p late

/-- Every record handed over has `P`, and those that are printed follow the rows before. -/
def Rows (w : World) (o : Options) (P : Info → Prop) (s t : Scan) : Prop := ∃ new, t.handed = s.handed ++ new ∧
  (∀ p ∈ new, P p) ∧ (o.Compile w → t.rows = s.rows ++ (new.filter (printed w o)).map row)

theorem rows_refl (w : World) (o : Options) (P : Info → Prop) (s : Scan) : Rows w o P s s := ⟨[],by simp,by simp,by simp⟩

theorem rows_trans (w : World) (o : Options) (P : Info → Prop) (s t u : Scan) (one : Rows w o P s t)
    (two : Rows w o P t u) : Rows w o P s u := by
  obtain ⟨first,same,holds,shown⟩ := one
  obtain ⟨second,behind,further,after⟩ := two
  refine ⟨first ++ second,by rw [behind,same,List.append_assoc],?_,?_⟩
  · exact fun p member => (List.mem_append.mp member).elim (holds p) (further p)
  · intro compile
    rw [after compile,shown compile,List.filter_append,List.map_append,List.append_assoc]

theorem Rows.hands {w : World} {o : Options} {P : Info → Prop} {s t : Scan} (rows : Rows w o P s t) : Hands P s t := by
  obtain ⟨new,same,holds,_⟩ := rows
  exact ⟨new,same,holds⟩

/-- From a record with `before` every record handed over has `P`, and `after` holds of
the record that is left. -/
abbrev Leaves (w : World) (o : Options) (P before : Info → Prop) {α : Type} (p : Op α) (after : α → Info → Prop) : Prop :=
  Keeps (Rows w o P) (fun s => before s.p) p fun a s => after a s.p

section Rules
variable {w : World} {o : Options} {P before : Info → Prop}

theorem leaves_pure {α : Type} {after : α → Info → Prop} (a : α) (holds : ∀ p, before p → after a p) :
    Leaves w o P before (pure a) after := keeps_pure (rows_refl w o P) a fun s => holds s.p

theorem leaves_complain (complaint : Complaint) : Leaves w o P before (complain complaint) fun _ => before :=
  keeps_change _ (fun s _ => rows_refl w o P s) fun _ holds => holds

theorem leaves_abort {α : Type} {after : α → Info → Prop} (why : Stop) : Leaves w o P before (abort why : Op α) after :=
  keeps_abort (rows_refl w o P) why

theorem leaves_bind {α β : Type} {middle : α → Info → Prop} {after : β → Info → Prop} {first : Op α}
    {next : α → Op β} (one : Leaves w o P before first middle) (two : ∀ a, Leaves w o P (middle a) (next a) after) :
    Leaves w o P before (first >>= next) after := keeps_bind (rows_trans w o P) one two

theorem leaves_error {α : Type} {after : α → Info → Prop} (what : String) :
    Leaves w o P before (error what : Op α) after :=
  leaves_bind (leaves_complain _) fun _ => leaves_abort _

theorem leaves_within {β : Type} {after : β → Info → Prop} {size : Nat} {text : Str} {next : Str → Op β}
    (rest : text.length < size → Leaves w o P before (next text) after) :
    Leaves w o P before (within size text >>= next) after := by
  unfold within
  split
  next fits => exact rest fits
  next => exact leaves_abort _

theorem leaves_setInfo (after : Info → Prop) {f : Info → Info} (holds : ∀ p, before p → after (f p)) :
    Leaves w o P before (setInfo f) fun _ => after :=
  keeps_change _ (fun s _ => rows_refl w o P s) fun s => holds s.p

theorem leaves_printPinfo (w : World) (o : Options) (shows : ∀ p, before p → P p) :
    Leaves w o P before (printPinfo w o) fun _ => before := by
  constructor
  case ends =>
    intro s holds
    refine ⟨[s.p],(printPinfo_hands w o s).2,?_,fun compile => printPinfo_rows compile s⟩
    intro p member
    rw [List.mem_singleton.mp member]
    exact shows s.p holds
  case returns =>
    intro s a t holds ok
    have same := (printPinfo_hands w o s).1
    rw [ok] at same
    exact same ▸ holds

theorem Leaves.wider {α : Type} {Q : Info → Prop} {p : Op α} {after : α → Info → Prop} (leaves : Leaves w o P before p after)
    (implies : ∀ p, P p → Q p) : Leaves w o Q before p after := by
  apply leaves.relax
  rintro s t ⟨new,same,holds,shown⟩
  exact ⟨new,same,fun p member => implies p (holds p member),shown⟩

theorem leaves_here {β : Type} {after : β → Info → Prop} {next : Scan → Op β}
    (rest : ∀ s, before s.p → Leaves w o P (· = s.p) (next s) after) : Leaves w o P before (current >>= next) after :=
  keeps_current fun s holds => (rest s holds).weaken (fun _ same => congrArg Scan.p same) fun _ _ done => done

theorem leaves_current {β : Type} {after : β → Info → Prop} {next : Scan → Op β}
    (rest : ∀ s, Leaves w o P before (next s) after) : Leaves w o P before (current >>= next) after :=
  leaves_here fun s holds => (rest s).weaken (fun _ same => same ▸ holds) fun _ _ done => done

end Rules

/-- The user's name, if there is one, was copied to the record. -/
def Known (user : Option Str) (p : Info) : Prop :=
  ∀ name, user = some name → name.length < MAX_NAME_SIZE ∧ p.userName = name

theorem leaves_getUserName {w : World} {o : Options} {P : Info → Prop} (uid : BitVec 32) :
    Leaves w o P (fun _ => True) (getUserName w uid) fun _ => Known (w.getpwuid uid) := by
  unfold getUserName
  cases w.getpwuid uid with
  | none =>
    have said : Leaves w o P (fun _ => True) (complain (.unknownUser uid)) fun _ _ => True := leaves_complain _
    exact said.weaken (fun _ holds => holds) fun _ _ _ => by simp [Known]
  | some pwName =>
    refine leaves_within fun fits => leaves_setInfo (Known (some pwName)) fun p _ => ?_
    rintro name ⟨⟩
    exact ⟨fits,rfl⟩

theorem leaves_user {w : World} {o : Options} {P : Info → Prop} (uid : BitVec 32) :
    Leaves w o P (fun _ => True) (getUserName w uid) fun _ _ => True :=
  (leaves_getUserName uid).weaken (fun _ holds => holds) fun _ _ _ => trivial

/-! The rows of one process. `B` is what no row of the process changes. -/

/-- `B` asks nothing of the columns that a row sets. -/
def Fixed (B : Info → Prop) : Prop :=
  ∀ p fd type inode name, B p → B {p with fd := fd,type := type,inode := inode,name := name}

def linkFds : List Str := ["cwd".toList,"rtd".toList,"txt".toList]

section Process
variable {w : World} {o : Options} {B : Info → Prop}

/-- What getMeta leaves in the record if it returns: of a link that is gone, nothing. -/
def Written (link : Link) (path : Str) (p : Info) : Prop :=
  match link.stat with
  | .ok buffer => ∃ target, link.target = some target ∧ p.name = target.take MAX_NAME_SIZE ∧
      p.inode = toInt buffer.ino ∧ p.type = linkType buffer.mode (toInt buffer.ino)
  | .denied => p.name = path ++ " (Permission denied)".toList ∧ p.inode = -1 ∧ p.type = "unknown".toList
  | .failed => True

theorem leaves_getMeta {P : Info → Prop}
    (kept : ∀ p type inode name, B p → B {p with type := type,inode := inode,name := name}) (link : Link) (path : Str) :
    Leaves w o P B (getMeta link path) fun _ p => B p ∧ Written link path p := by
  unfold getMeta Written
  cases link.stat with
  | denied => exact leaves_setInfo _ fun p holds => ⟨kept p _ _ _ holds,rfl,rfl,rfl⟩
  | failed => exact leaves_pure _ fun _ holds => ⟨holds,trivial⟩
  | ok buffer =>
    refine leaves_bind (leaves_setInfo _ fun p holds => kept p _ _ _ holds) fun _ => ?_
    cases link.target with
    | none => exact leaves_error _
    | some target => exact leaves_setInfo _ fun p holds => ⟨kept p _ _ _ holds,target,rfl,rfl,rfl,rfl⟩

theorem leaves_readLinks (fixed : Fixed B) (x : Process) : Leaves w o B B (readLinks w o x) fun _ => B := by
  have column (fd : Str) : Leaves w o B B (setInfo fun p => {p with fd := fd}) fun _ => B :=
    leaves_setInfo _ fun p holds => fixed p _ _ _ _ holds
  have shown : Leaves w o B B (printPinfo w o) fun _ => B := leaves_printPinfo w o fun _ holds => holds
  have linked (link : Link) (path : Str) : Leaves w o B B (getMeta link path) fun _ => B :=
    (leaves_getMeta (fun p _ _ _ holds => fixed p _ _ _ _ holds) link path).weaken (fun _ holds => holds)
      fun _ _ holds => holds.1
  unfold readLinks
  refine leaves_bind (column _) fun _ => leaves_bind (linked _ _) fun _ => leaves_bind shown fun _ => ?_
  refine leaves_bind (linked _ _) fun _ => leaves_bind (column _) fun _ => leaves_bind shown fun _ => ?_
  exact leaves_bind (linked _ _) fun _ => leaves_bind (column _) fun _ => shown

/-- What the rows behind those of the links show. -/
def Other (B : Info → Prop) (p : Info) : Prop := B p ∧ p.fd ∉ linkFds

theorem leaves_memName (fixed : Fixed B) (token : Option Str) :
    Leaves w o (Other B) B (memName token) fun _ => Other B := by
  have named (fd name : Str) (other : fd ∉ linkFds) :
      Leaves w o (Other B) B (setInfo fun p => {p with fd := fd,name := name}) fun _ => Other B :=
    leaves_setInfo _ fun p holds => ⟨fixed p _ _ _ _ holds,other⟩
  unfold memName
  cases token with
  | none => exact leaves_error _
  | some token =>
    refine leaves_within fun _ => keeps_ite _ (fun _ => leaves_error _) fun _ => ?_
    refine leaves_current fun s => keeps_ite _ (fun _ => ?_) fun _ => named _ _ (by decide)
    exact leaves_within fun _ => named _ _ (by decide)

theorem leaves_memLine (fixed : Fixed B) (dict : List Int) (line : Str) :
    Leaves w o (Other B) B (memLine w o dict line) fun _ => B := by
  unfold memLine
  refine keeps_ite _ (fun _ => leaves_pure _ fun _ holds => holds) fun _ => ?_
  refine leaves_bind (leaves_setInfo _ fun p holds => fixed p _ _ _ _ holds) fun _ => ?_
  refine leaves_bind (leaves_memName fixed _) fun _ => leaves_bind (leaves_printPinfo w o fun _ holds => holds) ?_
  exact fun _ => leaves_pure _ fun _ holds => holds.1

theorem leaves_memLines (fixed : Fixed B) (dict : List Int) (lines : List Str) :
    Leaves w o (Other B) B (memLines w o dict lines) fun _ => B := by
  induction lines generalizing dict with
  | nil => exact leaves_pure _ fun _ holds => holds
  | cons line rest ih => exact leaves_bind (leaves_memLine fixed dict line) fun dict => ih dict

theorem leaves_readMem (fixed : Fixed B) (x : Process) : Leaves w o (Other B) B (readMem w o x) fun _ => B := by
  unfold readMem
  refine leaves_bind (leaves_setInfo _ fun p holds => fixed p _ _ _ _ holds) fun _ => leaves_current fun s => ?_
  cases x.maps with
  | none => exact leaves_pure _ fun _ holds => holds
  | some lines => exact leaves_memLines fixed _ lines

theorem leaves_fdName {P : Info → Prop} (fixed : Fixed B) (target : Option Str) :
    Leaves w o P B (fdName target) fun _ => B := by
  have named (name : Str) : Leaves w o P B (setInfo fun p => {p with name := name}) fun _ => B :=
    leaves_setInfo _ fun p holds => fixed p _ _ _ _ holds
  unfold fdName
  refine leaves_bind (named _) fun _ => ?_
  cases target with
  | none => exact leaves_error _
  | some target =>
    exact leaves_within fun _ => keeps_ite _ (fun _ => leaves_abort _) fun _ => named _

theorem leaves_fdMeta {P : Info → Prop} (fixed : Fixed B) (name : Str) (buffer : Stat) :
    Leaves w o P B (fdMeta name buffer) fun _ p => B p ∧ p.fd = name := by
  refine leaves_within fun _ => leaves_bind (leaves_setInfo (fun p => B p ∧ p.fd = name) ?_) fun _ => ?_
  · exact fun p holds => ⟨fixed p _ _ _ _ holds,rfl⟩
  · split <;> exact leaves_setInfo _ fun p holds => ⟨fixed p _ _ _ _ holds.1,holds.2⟩

theorem accessSuffix_letter {mode : BitVec 32} {suffix : Str} (letter : accessSuffix mode = some suffix) :
    suffix ∈ ["u".toList,"r".toList,"w".toList] := by
  dsimp only [accessSuffix] at letter
  split at letter
  next => cases letter; simp
  split at letter
  next => cases letter; simp
  split at letter
  next => cases letter; simp
  next => cases letter

/-- A digit in front keeps the columns of descriptors and of links apart. -/
theorem digits_other {name : Str} (digits : isNum name) {mode : BitVec 32} {suffix : Str}
    (letter : accessSuffix mode = some suffix) : name ++ suffix ∉ linkFds := by
  cases name with
  | nil =>
    have letters := accessSuffix_letter letter
    simp only [List.mem_cons,List.not_mem_nil,or_false] at letters
    rcases letters with rfl | rfl | rfl <;> decide
  | cons c rest =>
    have lettered : ∀ fd ∈ linkFds, fd.head?.bind decDigit = none := by decide
    intro member
    have digit := List.all_eq_true.mp digits c List.mem_cons_self
    have apart := lettered _ member
    rw [List.cons_append,List.head?_cons,Option.bind_some] at apart
    simp [apart] at digit

theorem leaves_fdAccess {P : Info → Prop} (fixed : Fixed B) {name : Str} (digits : isNum name) (mode : BitVec 32) :
    Leaves w o P (fun p => B p ∧ p.fd = name) (fdAccess mode) fun _ => Other B := by
  unfold fdAccess
  cases letter : accessSuffix mode with
  | none => exact leaves_error _
  | some suffix =>
    refine leaves_here fun s ⟨holds,column⟩ => leaves_within fun _ => leaves_setInfo _ ?_
    rintro p rfl
    exact ⟨fixed s.p _ _ _ _ holds,digits_other (column ▸ digits) letter⟩

theorem leaves_fdEntry (fixed : Fixed B) (e : Entry) (digits : isNum e.name) :
    Leaves w o (Other B) B (fdEntry w o e) fun _ => B := by
  unfold fdEntry
  refine leaves_bind (leaves_fdName fixed _) fun _ => ?_
  cases e.stat with
  | none => exact leaves_pure _ fun _ holds => holds
  | some buffer =>
    refine leaves_bind (leaves_fdMeta fixed _ _) fun _ => ?_
    cases e.lstat with
    | none => exact leaves_pure _ fun _ holds => holds.1
    | some link =>
      refine leaves_bind (leaves_fdAccess fixed digits _) fun _ => ?_
      exact leaves_bind (leaves_printPinfo w o fun _ holds => holds) fun _ => leaves_pure _ fun _ holds => holds.1

theorem leaves_fdEntries (fixed : Fixed B) (entries : List Entry) :
    Leaves w o (Other B) B (fdEntries w o entries) fun _ => B := by
  induction entries with
  | nil => exact leaves_pure _ fun _ holds => holds
  | cons e rest ih =>
    refine keeps_ite _ (fun digits => ?_) fun _ => ih
    refine leaves_bind (leaves_fdEntry fixed e digits) fun more => keeps_ite _ (fun _ => ih) fun _ => ?_
    exact leaves_pure _ fun _ holds => holds

theorem leaves_readFd (fixed : Fixed B) (x : Process) : Leaves w o (Other B) B (readFd w o x) fun _ => B := by
  unfold readFd
  cases x.fds with
  | none =>
    refine leaves_bind (leaves_setInfo (Other B) ?_) fun _ => ?_
    · exact fun p holds => ⟨fixed p _ _ _ _ holds,show "NOFD".toList ∉ linkFds by decide⟩
    · exact (leaves_printPinfo w o fun _ holds => holds).weaken (fun _ holds => holds) fun _ _ holds => holds.1
  | some dir => exact keeps_ite _ (fun _ => leaves_error _) fun _ => leaves_fdEntries fixed _

theorem leaves_rows (fixed : Fixed B) (x : Process) :
    Leaves w o B B (readLinks w o x >>= fun _ => readMem w o x >>= fun _ => readFd w o x) fun _ => B := by
  refine leaves_bind (leaves_readLinks fixed x) fun _ => ?_
  refine leaves_bind ((leaves_readMem fixed x).wider fun _ holds => holds.1) fun _ => ?_
  exact (leaves_readFd fixed x).wider fun _ holds => holds.1

end Process

/-! A system without users and processes, a process of which nothing can be read, no
filters, and a record of zeroes. -/

def noUsers : World := ⟨fun _ => none,fun _ => none,none⟩

def goneLink : Link := ⟨.failed,none⟩

def idle : Process where
  name := "7".toList
  stat := none
  statFile := none
  cwd := goneLink
  root := goneLink
  exe := goneLink
  maps := none
  fds := none
  short := by decide

def noFilters : Options := ⟨none,none,none⟩

def zeroes : Scan := ⟨⟨0,[],[],[],[],0,[]⟩,[],[],[]⟩

theorem noFilters_compile (w : World) : noFilters.Compile w := by
  constructor <;> (intro pattern same; cases same)

end Unixprog.Hw1
