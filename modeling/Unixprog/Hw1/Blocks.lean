import Unixprog.Library.Yields
import Unixprog.Hw1.Links

/-! The listing as a whole: which records main hands to print_pinfo, and in which order. -/
namespace Unixprog.Hw1
open CStrings Aborts

/-- The record is about the process: its pid and command are those of the stat file, its user the owner. -/
structure About (w : World) (x : Process) (p : Info) : Prop where
  named : ∃ text pid word, x.statFile = some text ∧ scanStat text = some (pid,word) ∧ p.pid = pid ∧
    p.procName = (word.drop 1).dropLast
  user : ∀ buffer name, x.stat = some buffer → w.getpwuid buffer.uid = some name → p.userName = name

def memFds : List Str := ["mem".toList,"DEL".toList]

/-- The column of a descriptor: its number and a letter. -/
def FdColumn (fd : Str) : Prop :=
  fd = "NOFD".toList ∨ ∃ number letter, fd = number ++ letter ∧ isNum number = true ∧
    letter ∈ ["u".toList,"r".toList,"w".toList]

/-- The records of a process are those of its links, of its mappings and of its descriptors. A process
whose stat file cannot be read or scanned has none. -/
inductive Block (w : World) (x : Process) : List Info → Prop
  | hidden (unread : ∀ text, x.stat.isSome → x.statFile = some text → scanStat text = none) : Block w x []
  | shown {links mapped opened : List Info} (about : ∀ p ∈ links ++ (mapped ++ opened), About w x p)
      (linked : links.map Info.fd = linkFds) (maps : ∀ p ∈ mapped, p.fd ∈ memFds)
      (fds : ∀ p ∈ opened, FdColumn p.fd) : Block w x (links ++ (mapped ++ opened))

inductive Blocks (w : World) : List Process → List Info → Prop
  | nil : Blocks w [] []
  | cons {x : Process} {rest : List Process} {block others : List Info} (first : Block w x block)
      (later : Blocks w rest others) : Blocks w (x::rest) (block ++ others)

/-- From a record with `before` the records handed over are a word of `L`. -/
abbrev Shows (L : List Info → Prop) (before : Info → Prop) {α : Type} (p : Op α) (after : α → Info → Prop) : Prop :=
  Yields Scan.handed L (fun s => before s.p) p fun a s => after a s.p

section Rules
variable {w : World} {o : Options} {L : List Info → Prop} {P before : Info → Prop}

theorem shows_setInfo (after : Info → Prop) {f : Info → Info} (holds : ∀ p, before p → after (f p)) :
    Shows Silence before (setInfo f) fun _ => after :=
  yields_change _ (fun _ => rfl) fun s => holds s.p

theorem shows_printPinfo (w : World) (o : Options) (word : ∃ p, P p) :
    Shows (Single P) P (printPinfo w o) fun _ => P := by
  have hands (s : Scan) := printPinfo_hands w o s
  constructor
  case word =>
    obtain ⟨p,holds⟩ := word
    exact ⟨[p],p,rfl,holds⟩
  case returns =>
    intro s a t holds ok
    have handed := hands s
    rw [ok] at handed
    exact ⟨[s.p],handed.2,⟨s.p,rfl,holds⟩,by rwa [← handed.1] at holds⟩
  case stops =>
    intro s why t holds ok
    have handed := hands s
    rw [ok] at handed
    exact ⟨[s.p],[],handed.2,s.p,rfl,holds⟩

/-- Where every record has `P`, no stop adds others. -/
theorem shows_many {α : Type} {p : Op α} {after : α → Info → Prop} (leaves : Leaves w o P before p after) :
    Shows (Many P) before p after := by
  constructor
  case word => exact ⟨[],many_nil P⟩
  case returns =>
    intro s a t started ok
    obtain ⟨new,added,holds⟩ := (leaves.ends s started).hands
    rw [ok] at added
    exact ⟨new,added,holds,leaves.returns s a t started ok⟩
  case stops =>
    intro s why t started ok
    obtain ⟨new,added,holds⟩ := (leaves.ends s started).hands
    rw [ok] at added
    exact ⟨new,[],added,by rwa [List.append_nil]⟩

end Rules

/-! The parts of a block. `B` is what no row of the process changes. -/

section Parts
variable {w : World} {o : Options} {B : Info → Prop}

def With (B : Info → Prop) (fds : Str → Prop) (p : Info) : Prop := B p ∧ fds p.fd

theorem leaves_shown (fds : Str → Prop) {α : Type} (value : α) : Leaves w o (With B fds) (With B fds)
    (printPinfo w o >>= fun _ => pure value) fun _ => B :=
  leaves_bind (leaves_printPinfo w o fun _ holds => holds) fun _ => leaves_pure _ fun _ holds => holds.1

theorem leaves_maps (fixed : Fixed B) (x : Process) : Leaves w o (With B (· ∈ memFds)) B (readMem w o x) fun _ => B := by
  have named (token : Option Str) : Leaves w o (With B (· ∈ memFds)) B (memName token) fun _ => With B (· ∈ memFds) := by
    have sets (fd name : Str) (column : fd ∈ memFds) : Leaves w o (With B (· ∈ memFds)) B
        (setInfo fun p => {p with fd := fd,name := name}) fun _ => With B (· ∈ memFds) :=
      leaves_setInfo _ fun p holds => ⟨fixed p _ _ _ _ holds,column⟩
    unfold memName
    cases token with
    | none => exact leaves_error _
    | some token =>
      refine leaves_within fun _ => keeps_ite _ (fun _ => leaves_error _) fun _ => ?_
      refine leaves_current fun s => keeps_ite _ (fun _ => ?_) fun _ => sets _ _ (by decide)
      exact leaves_within fun _ => sets _ _ (by decide)
  have looped (dict : List Int) (lines : List Str) :
      Leaves w o (With B (· ∈ memFds)) B (memLines w o dict lines) fun _ => B := by
    induction lines generalizing dict with
    | nil => exact leaves_pure _ fun _ holds => holds
    | cons line rest ih =>
      refine leaves_bind (keeps_ite _ (fun _ => leaves_pure _ fun _ holds => holds) fun _ => ?_) fun dict => ih dict
      refine leaves_bind (leaves_setInfo _ fun p holds => fixed p _ _ _ _ holds) fun _ => ?_
      exact leaves_bind (named _) fun _ => leaves_shown _ _
  refine leaves_bind (leaves_setInfo _ fun p holds => fixed p _ _ _ _ holds) fun _ => leaves_current fun s => ?_
  cases x.maps with
  | none => exact leaves_pure _ fun _ holds => holds
  | some lines => exact looped _ lines

theorem leaves_fdColumn {P : Info → Prop} (fixed : Fixed B) {name : Str} (digits : isNum name = true)
    (mode : BitVec 32) : Leaves w o P (fun p => B p ∧ p.fd = name) (fdAccess mode) fun _ => With B FdColumn := by
  unfold fdAccess
  cases letter : accessSuffix mode with
  | none => exact leaves_error _
  | some suffix =>
    refine leaves_here fun s ⟨holds,column⟩ => leaves_within fun _ => leaves_setInfo _ ?_
    rintro p rfl
    exact ⟨fixed s.p _ _ _ _ holds,.inr ⟨name,suffix,by rw [← column],digits,accessSuffix_letter letter⟩⟩

theorem leaves_fds (fixed : Fixed B) (x : Process) : Leaves w o (With B FdColumn) B (readFd w o x) fun _ => B := by
  have entered (e : Entry) (digits : isNum e.name = true) :
      Leaves w o (With B FdColumn) B (fdEntry w o e) fun _ => B := by
    refine leaves_bind (leaves_fdName fixed _) fun _ => ?_
    cases e.stat with
    | none => exact leaves_pure _ fun _ holds => holds
    | some buffer =>
      refine leaves_bind (leaves_fdMeta fixed _ _) fun _ => ?_
      cases e.lstat with
      | none => exact leaves_pure _ fun _ holds => holds.1
      | some link =>
        exact leaves_bind (leaves_fdColumn fixed digits _) fun _ => leaves_shown _ _
  have looped (entries : List Entry) : Leaves w o (With B FdColumn) B (fdEntries w o entries) fun _ => B := by
    induction entries with
    | nil => exact leaves_pure _ fun _ holds => holds
    | cons e rest ih =>
      refine keeps_ite _ (fun digits => ?_) fun _ => ih
      refine leaves_bind (entered e digits) fun more => keeps_ite _ (fun _ => ih) fun _ => ?_
      exact leaves_pure _ fun _ holds => holds
  unfold readFd
  cases x.fds with
  | none =>
    refine leaves_bind (leaves_setInfo (With B FdColumn) fun p holds => ⟨fixed p _ _ _ _ holds,.inl rfl⟩) fun _ => ?_
    exact (leaves_printPinfo w o fun _ holds => holds).weaken (fun _ holds => holds) fun _ _ holds => holds.1
  | some dir => exact keeps_ite _ (fun _ => leaves_error _) fun _ => looped _

/-- The rows of the links, each with its own column. -/
def Links (B : Info → Prop) : List Info → Prop :=
  Sequel (Single (With B (· = "cwd".toList))) (Sequel (Single (With B (· = "rtd".toList)))
    (Single (With B (· = "txt".toList))))

theorem links_word (word : ∀ fd, ∃ p, With B (· = fd) p) : ∃ word, Links B word := by
  obtain ⟨p,cwd⟩ := word "cwd".toList
  obtain ⟨q,rtd⟩ := word "rtd".toList
  obtain ⟨r,txt⟩ := word "txt".toList
  exact ⟨[p,q,r],[p],[q,r],rfl,⟨p,rfl,cwd⟩,[q],[r],rfl,⟨q,rfl,rtd⟩,r,rfl,txt⟩

/-- Nothing is handed over. -/
theorem shows_silent {α : Type} {before : Info → Prop} {p : Op α} {after : α → Info → Prop}
    (leaves : Leaves w o (fun _ => False) before p after) : Shows Silence before p after :=
  (shows_many leaves).weaken (fun _ none => List.eq_nil_iff_forall_not_mem.mpr none) (fun _ holds => holds)
    fun _ _ holds => holds

theorem shows_readLinks (fixed : Fixed B) (word : ∀ fd, ∃ p, With B (· = fd) p) (x : Process) :
    Shows (Links B) B (readLinks w o x) fun _ => B := by
  have column (fd : Str) : Shows Silence B (setInfo fun p => {p with fd := fd}) fun _ => With B (· = fd) :=
    shows_setInfo _ fun p holds => ⟨fixed p _ _ _ _ holds,rfl⟩
  have linked (link : Link) (path : Str) : Shows Silence B (getMeta link path) fun _ => B := by
    refine shows_silent (w := w) (o := o) ((leaves_getMeta ?_ link path).weaken (fun _ holds => holds) fun _ _ holds => holds.1)
    exact fun p _ _ _ holds => fixed p _ _ _ _ holds
  have headed (link : Link) (path fd : Str) : Shows Silence (With B (· = fd)) (getMeta link path)
      fun _ => With B (· = fd) := by
    refine shows_silent (w := w) (o := o) ((leaves_getMeta ?_ link path).weaken (fun _ holds => holds) fun _ _ holds => holds.1)
    exact fun p _ _ _ holds => ⟨fixed p _ _ _ _ holds.1,holds.2⟩
  have shown (fd : Str) : Shows (Single (With B (· = fd))) (With B (· = fd)) (printPinfo w o) fun _ => B :=
    (shows_printPinfo w o (word fd)).weaken (fun _ good => good) (fun _ holds => holds) fun _ _ holds => holds.1
  have last : ∃ word, Single (With B (· = "txt".toList)) word := (shown _).word
  have later : ∃ word, Sequel (Single (With B (· = "rtd".toList))) (Single (With B (· = "txt".toList))) word := by
    obtain ⟨b,good⟩ := last
    obtain ⟨a,good'⟩ := (shown "rtd".toList).word
    exact ⟨a ++ b,a,b,rfl,good',good⟩
  have all := links_word word
  unfold readLinks
  refine yields_then (column _) all fun _ => yields_then (headed _ _ _) all fun _ => ?_
  refine yields_bind (shown _) later fun _ => yields_then (linked _ _) later fun _ => ?_
  refine yields_then (column _) later fun _ => yields_bind (shown _) last fun _ => ?_
  exact yields_then (linked _ _) last fun _ => yields_then (column _) last fun _ => shown _

end Parts

/-! One process. -/

section Process
variable {w : World} {o : Options} {x : Process} {buffer : Stat} {text word : Str} {pid : Int}

/-- What the rows of the process have in common, once its stat file is scanned. -/
def Headed (w : World) (buffer : Stat) (pid : Int) (word : Str) (p : Info) : Prop :=
  p.pid = pid ∧ p.procName = (word.drop 1).dropLast ∧
    ∀ name, w.getpwuid buffer.uid = some name → p.userName = name

theorem headed_fixed : Fixed (Headed w buffer pid word) := fun _ _ _ _ _ holds => holds

theorem headed_word (fd : Str) : ∃ p, With (Headed w buffer pid word) (· = fd) p := by
  refine ⟨⟨pid,(word.drop 1).dropLast,(w.getpwuid buffer.uid).getD [],fd,[],0,[]⟩,⟨rfl,rfl,?_⟩,rfl⟩
  intro name known
  simp [known]

theorem headed_about (stat : x.stat = some buffer) (statFile : x.statFile = some text)
    (scans : scanStat text = some (pid,word)) {p : Info} (headed : Headed w buffer pid word p) : About w x p := by
  refine ⟨⟨text,pid,word,statFile,scans,headed.1,headed.2.1⟩,?_⟩
  intro other name again known
  obtain rfl := Option.some.inj (stat.symm.trans again)
  exact headed.2.2 name known

theorem block_of_parts (stat : x.stat = some buffer) (statFile : x.statFile = some text)
    (scans : scanStat text = some (pid,word)) {records : List Info}
    (parts : Sequel (Links (Headed w buffer pid word)) (Sequel (Many (With (Headed w buffer pid word) (· ∈ memFds)))
      (Many (With (Headed w buffer pid word) FdColumn))) records) : Block w x records := by
  obtain ⟨_,_,rfl,⟨_,_,rfl,⟨p,rfl,cwd⟩,_,_,rfl,⟨q,rfl,rtd⟩,r,rfl,txt⟩,mapped,opened,rfl,maps,fds⟩ := parts
  have about {p : Info} (headed : Headed w buffer pid word p) : About w x p :=
    headed_about stat statFile scans headed
  refine .shown ?_ ?_ (fun p member => (maps p member).2) fun p member => (fds p member).2
  · simp only [List.forall_mem_append,List.forall_mem_singleton]
    exact ⟨⟨about cwd.1,about rtd.1,about txt.1⟩,fun p member => about (maps p member).1,
      fun p member => about (fds p member).1⟩
  · have cwd' : p.fd = "cwd".toList := cwd.2
    have rtd' : q.fd = "rtd".toList := rtd.2
    have txt' : r.fd = "txt".toList := txt.2
    simp [linkFds,cwd',rtd',txt']

theorem shows_rows (w : World) (o : Options) (x : Process) (stat : x.stat = some buffer) (statFile : x.statFile = some text)
    (scans : scanStat text = some (pid,word)) : Shows (Block w x) (Headed w buffer pid word)
      (readLinks w o x >>= fun _ => readMem w o x >>= fun _ => readFd w o x) fun _ _ => True := by
  have fixed : Fixed (Headed w buffer pid word) := headed_fixed
  have opened := shows_many (leaves_fds (w := w) (o := o) fixed x)
  have mapped := yields_bind (shows_many (leaves_maps (w := w) (o := o) fixed x)) opened.word fun _ => opened
  have linked := yields_bind (shows_readLinks (w := w) (o := o) fixed headed_word x) mapped.word fun _ => mapped
  exact linked.weaken (fun _ parts => block_of_parts stat statFile scans parts) (fun _ holds => holds)
    fun _ _ _ => trivial

/-- The record has the pid and the command of the stat file. -/
def Scanned (w : World) (buffer : Stat) (text : Str) (p : Info) : Prop :=
  ∃ pid word, scanStat text = some (pid,word) ∧ Headed w buffer pid word p

theorem leaves_scanned (w : World) (o : Options) (buffer : Stat) (text : Str) : Leaves w o (fun _ => False)
    (Known (w.getpwuid buffer.uid)) (readStat text) fun _ => Scanned w buffer text := by
  refine (leaves_readStat (fun _ _ _ holds => holds) text).weaken (fun _ holds => holds) ?_
  rintro _ t ⟨known,_,pid,word,scans,numbered,named⟩
  exact ⟨pid,word,scans,numbered,named,fun name same => (known name same).2⟩

theorem shows_nothing {α : Type} (unread : ∀ text, x.stat.isSome → x.statFile = some text → scanStat text = none)
    {before : Info → Prop} (a : α) : Shows (Block w x) before (pure a : Op α) fun _ _ => True := by
  refine (yields_pure a fun _ _ => trivial).weaken ?_ (fun _ holds => holds) fun _ _ holds => holds
  rintro _ rfl
  exact .hidden unread

theorem shows_readInfo (w : World) (o : Options) (x : Process) :
    Shows (Block w x) (fun _ => True) (readInfo w o x) fun _ _ => True := by
  unfold readInfo
  cases stat : x.stat with
  | none => exact shows_nothing (fun text found => by simp [stat] at found) _
  | some buffer =>
    have user := shows_silent (leaves_getUserName (w := w) (o := o) (P := fun _ => False) buffer.uid)
    cases statFile : x.statFile with
    | none =>
      have unread : ∀ text, x.stat.isSome → x.statFile = some text → scanStat text = none :=
        fun text _ found => by simp [statFile] at found
      exact yields_then user ⟨[],.hidden unread⟩ fun _ => shows_nothing unread _
    | some text =>
      have headed := shows_silent (leaves_scanned w o buffer text)
      cases scans : scanStat text with
      | none =>
        have word : ∃ word, Block w x word := by
          refine ⟨[],.hidden fun other _ found => ?_⟩
          obtain rfl := Option.some.inj (statFile.symm.trans found)
          exact scans
        refine yields_then user word fun _ => yields_then headed word fun _ => ?_
        refine (yields_never word _).weaken (fun _ good => good) ?_ fun _ _ holds => holds
        rintro s ⟨pid,word,found,_⟩
        rw [scans] at found
        cases found
      | some found =>
        obtain ⟨pid,word⟩ := found
        have rows := shows_rows w o x stat statFile scans
        refine yields_then user rows.word fun _ => yields_then headed rows.word fun _ => ?_
        refine rows.weaken (fun _ good => good) ?_ fun _ _ holds => holds
        rintro s ⟨pid',word',found,holds⟩
        obtain ⟨rfl,rfl⟩ := Prod.mk.inj (Option.some.inj (scans.symm.trans found))
        exact holds

end Process

theorem shows_listProcesses (w : World) (o : Options) (processes : List Process) :
    Shows (Blocks w (processes.filter fun x => isNum x.name)) (fun _ => True) (listProcesses w o processes)
      fun _ _ => True := by
  induction processes with
  | nil =>
    refine (yields_pure () fun _ _ => trivial).weaken ?_ (fun _ holds => holds) fun _ _ holds => holds
    rintro _ rfl
    exact .nil
  | cons x rest ih =>
    cases digits : isNum x.name with
    | false => simpa [listProcesses,digits] using ih
    | true =>
      have both := yields_bind (shows_readInfo w o x) ih.word fun _ => ih
      have whole : Shows (Blocks w (x::rest.filter fun x => isNum x.name)) (fun _ => True)
          (readInfo w o x >>= fun _ => listProcesses w o rest) fun _ _ => True := by
        refine both.weaken ?_ (fun _ holds => holds) fun _ _ holds => holds
        rintro _ ⟨block,others,rfl,first,later⟩
        exact .cons first later
      simpa [listProcesses,digits] using whole

theorem shows_complain {before : Info → Prop} (complaint : Complaint) :
    Shows Silence before (complain complaint) fun _ _ => True :=
  yields_change _ (fun _ => rfl) fun _ _ => trivial

theorem shows_usage {α : Type} {before : Info → Prop} {after : α → Info → Prop} :
    Shows Silence before (usage : Op α) after :=
  yields_then (shows_complain _) ⟨[],rfl⟩ fun _ => yields_abort _ ⟨[],rfl⟩

theorem shows_parseOptions (o : Options) (opts : List Opt) :
    Shows Silence (fun _ => True) (parseOptions o opts) fun _ _ => True := by
  induction opts generalizing o with
  | nil => exact yields_pure _ fun _ _ => trivial
  | cons opt rest ih =>
    cases opt with
    | other => exact shows_usage
    | _ => exact ih _

theorem shows_listing (w : World) (o : Options) :
    Shows (Blocks w ((w.processes.getD []).filter fun x => isNum x.name)) (fun _ => True) (listing w o)
      fun _ _ => True := by
  have listed := shows_listProcesses w o
  have word := (listed (w.processes.getD [])).word
  have headed : Shows Silence (fun _ => True) (change fun s : Scan => {s with rows := s.rows ++ [header]})
      fun _ _ => True := yields_change _ (fun _ => rfl) fun _ _ => trivial
  have said : Shows Silence (fun _ => True) (complain .invalidType) fun _ _ => True := shows_complain _
  have left : Shows Silence (fun _ => True) (exit 1 : Op PUnit) fun _ _ => True := yields_abort _ ⟨[],rfl⟩
  unfold listing
  cases entries : w.processes with
  | none =>
    rw [entries] at word
    have unlisted : Shows (Blocks w (([] : List Process).filter fun x => isNum x.name)) (fun _ => True)
        (undefined : Op Unit) fun _ _ => True := yields_abort _ word
    have rows := yields_then headed word fun _ => unlisted
    refine yields_ite _ (fun _ => ?_) fun _ => rows
    exact yields_then said word fun _ => yields_then left word fun _ => rows
  | some processes =>
    rw [entries] at word
    have rows := yields_then headed word fun _ => listed processes
    refine yields_ite _ (fun _ => ?_) fun _ => rows
    exact yields_then said word fun _ => yields_then left word fun _ => rows

theorem shows_main (w : World) (opts : List Opt) (operands : Nat) :
    Shows (Blocks w ((w.processes.getD []).filter fun x => isNum x.name)) (fun _ => True) (main w opts operands)
      fun _ _ => True := by
  have word := (shows_listing w noFilters).word
  have used : Shows Silence (fun _ => True) (usage : Op PUnit) fun _ _ => True := shows_usage
  unfold main
  refine yields_then (shows_parseOptions _ _) word fun o => yields_ite _ (fun _ => ?_) fun _ => shows_listing w o
  exact yields_then used word fun _ => shows_listing w o

/-- main hands the records over process by process, in the order of `/proc`, each under its own process. -/
theorem rows_by_process (w : World) (opts : List Opt) (operands : Nat) (s : Scan) : ∃ new rest,
    ((main w opts operands).run s).state.handed = s.handed ++ new ∧
      Blocks w ((w.processes.getD []).filter fun x => isNum x.name) (new ++ rest) ∧
      ∀ t, (main w opts operands).run s = .returned () t → rest = [] := by
  cases ran : (main w opts operands).run s with
  | returned a t =>
    obtain ⟨new,added,good,_⟩ := (shows_main w opts operands).returns s a t trivial ran
    exact ⟨new,[],added,by rwa [List.append_nil],fun _ _ => rfl⟩
  | stopped why t =>
    obtain ⟨new,rest,added,good⟩ := (shows_main w opts operands).stops s why t trivial ran
    exact ⟨new,rest,added,good,fun _ impossible => by cases impossible⟩

end Unixprog.Hw1
