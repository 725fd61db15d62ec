import Unixprog.Hw1.Rows

/-! The rows cwd, rtd and txt: what they take from their own link and what is left in
the record by other links and other processes. -/
namespace Unixprog.Hw1
open CStrings Aborts

inductive Column
  | cwd
  | rtd
  | txt
deriving DecidableEq

def Column.fd : Column → Str
  | .cwd => "cwd".toList
  | .rtd => "rtd".toList
  | .txt => "txt".toList

def Column.link (x : Process) : Column → Link
  | .cwd => x.cwd
  | .rtd => x.root
  | .txt => x.exe

def Column.path (x : Process) : Column → Str
  | .cwd => procPath x "cwd"
  | .rtd => procPath x "root"
  | .txt => procPath x "exe"

def userOf (w : World) (x : Process) : Option Str := x.stat.bind fun buffer => w.getpwuid buffer.uid

/-- Both conversions of fscanf succeed on a word that fits and has two characters or more. -/
def Scans (text : Str) : Prop := ∃ pid word, scanStat text = some (pid,word) ∧ word.length < MAX_NAME_SIZE ∧
  word.drop 1 ≠ []

/-- readInfo gets as far as the rows of the links. -/
structure Reaches (w : World) (x : Process) : Prop where
  present : x.stat.isSome
  fits : ∀ name, userOf w x = some name → name.length < MAX_NAME_SIZE
  scans : ∃ text, x.statFile = some text ∧ Scans text

/-- stat works but readlink does not: the row is never reached. -/
def Link.Exits (link : Link) : Prop := (∃ buffer, link.stat = .ok buffer) ∧ link.target = none

/-- The target that readlink stores leaves room for a terminator. -/
def Link.Ends (link : Link) : Prop :=
  ∀ buffer target, link.stat = .ok buffer → link.target = some target → target.length < MAX_NAME_SIZE

/-- TYPE, NODE (none where it is left blank), NAME and USER. -/
def visible (p : Info) : Str × Option Int × Str × Str :=
  (p.type,if p.inode = -1 ∨ p.type = "unknown".toList then none else some p.inode,p.name,p.userName)

def Scan.since (s t : Scan) : List Info := t.handed.drop s.handed.length

/-- The rows printed from `s` to `t`. -/
def Scan.lines (s t : Scan) : List Str := t.rows.drop s.rows.length

/-- The same process with the same link; everything else may differ. -/
structure SameBut (c : Column) (x y : Process) : Prop where
  name : y.name = x.name
  stat : y.stat = x.stat
  statFile : y.statFile = x.statFile
  link : c.link y = c.link x

/-- Whatever the other links are and whatever was listed before: if the row of the column is to be
printed, it is printed in every run that gets to it, and shows the same. -/
def ShowsOwn (w : World) (x : Process) (c : Column) : Prop :=
  ∀ (o : Options) (y z : Process) (s t : Scan), o.Compile w → SameBut c x y → SameBut c x z →
    ∀ p ∈ s.since ((readInfo w o y).run s).state, ∀ q ∈ t.since ((readInfo w o z).run t).state,
      p.fd = c.fd → q.fd = c.fd → passes w o p = true →
        row p ∈ s.lines ((readInfo w o y).run s).state ∧ row q ∈ t.lines ((readInfo w o z).run t).state ∧
          visible p = visible q

section Rows
variable {w : World} {o : Options} {x : Process}

/-- The record has the pid and the command of the line. -/
def Titled (text : Str) (p : Info) : Prop :=
  ∃ pid word, scanStat text = some (pid,word) ∧ p.pid = pid ∧ p.procName = (word.drop 1).dropLast

theorem leaves_readStat {P B : Info → Prop} (kept : ∀ p pid procName, B p → B {p with pid := pid,procName := procName})
    (text : Str) : Leaves w o P B (readStat text) fun _ p => B p ∧ Scans text ∧ Titled text p := by
  unfold readStat
  cases scanned : scanStat text with
  | none => exact leaves_error _
  | some pair =>
    obtain ⟨pid,word⟩ := pair
    refine leaves_bind (leaves_setInfo (fun p => B p ∧ p.pid = pid) fun p holds => ⟨kept p pid p.procName holds,rfl⟩)
      fun _ => ?_
    have stops : Leaves w o P (fun p => B p ∧ p.pid = pid) (undefined : Op Unit)
        fun _ p => B p ∧ Scans text ∧ Titled text p := leaves_abort _
    refine leaves_within fun fits => keeps_ite _ (fun _ => stops) fun nonempty => ?_
    have named (p : Info) (holds : B p ∧ p.pid = pid) :
        B {p with procName := (word.drop 1).dropLast} ∧ Scans text ∧
          Titled text {p with procName := (word.drop 1).dropLast} :=
      ⟨kept p p.pid _ holds.1,⟨pid,word,scanned,fits,nonempty⟩,pid,word,scanned,holds.2,rfl⟩
    exact leaves_setInfo (fun p => B p ∧ Scans text ∧ Titled text p) named

/-- The process was reached, and the record has its pid, its command and its user, if there is one. -/
structure Own (w : World) (x : Process) (p : Info) : Prop where
  reaches : Reaches w x
  known : Known (userOf w x) p
  titled : ∃ text, x.statFile = some text ∧ Titled text p

/-- What a row of the column tells of its process. -/
def OwnRow (w : World) (x : Process) (c : Column) (p : Info) : Prop :=
  p.fd = c.fd → Own w x p ∧ Written (c.link x) (c.path x) p

theorem leaves_row (c d : Column) : Leaves w o (OwnRow w x c)
    (fun p => (Own w x p ∧ p.fd = d.fd) ∧ Written (d.link x) (d.path x) p) (printPinfo w o) fun _ => Own w x := by
  have printed : Leaves w o (OwnRow w x c) (fun p => (Own w x p ∧ p.fd = d.fd) ∧ Written (d.link x) (d.path x) p)
      (printPinfo w o) fun _ p => (Own w x p ∧ p.fd = d.fd) ∧ Written (d.link x) (d.path x) p := by
    apply leaves_printPinfo w o
    intro p holds same
    have one : d = c := by
      have fds := holds.1.2.symm.trans same
      revert fds
      cases d <;> cases c <;> decide
    subst one
    exact ⟨holds.1.1,holds.2⟩
  exact printed.weaken (fun _ holds => holds) fun _ _ holds => holds.1.1

theorem own_kept {p : Info} {fd type : Str} {inode : Int} {name : Str} (own : Own w x p) :
    Own w x {p with fd := fd,type := type,inode := inode,name := name} := ⟨own.reaches,own.known,own.titled⟩

theorem leaves_columns (c : Column) : Leaves w o (OwnRow w x c) (Own w x) (readLinks w o x) fun _ => Own w x := by
  have link (d : Column) : Leaves w o (OwnRow w x c) (Own w x) (getMeta (d.link x) (d.path x))
      fun _ p => Own w x p ∧ Written (d.link x) (d.path x) p :=
    leaves_getMeta (fun _ _ _ _ holds => own_kept holds) _ _
  have column (d : Column) : Leaves w o (OwnRow w x c) (fun p => Own w x p ∧ Written (d.link x) (d.path x) p)
      (setInfo fun p => {p with fd := d.fd})
      fun _ p => (Own w x p ∧ p.fd = d.fd) ∧ Written (d.link x) (d.path x) p :=
    leaves_setInfo _ fun p holds => ⟨⟨own_kept holds.1,rfl⟩,holds.2⟩
  have cwd : Leaves w o (OwnRow w x c) (fun p => Own w x p ∧ p.fd = Column.cwd.fd) (getMeta x.cwd (procPath x "cwd"))
      fun _ p => (Own w x p ∧ p.fd = Column.cwd.fd) ∧ Written x.cwd (procPath x "cwd") p :=
    leaves_getMeta (fun _ _ _ _ holds => ⟨own_kept holds.1,holds.2⟩) _ _
  unfold readLinks
  refine leaves_bind (leaves_setInfo _ fun p holds => ⟨own_kept holds,rfl⟩) fun _ => leaves_bind cwd fun _ => ?_
  refine leaves_bind (leaves_row c .cwd) fun _ => leaves_bind (link .rtd) fun _ => leaves_bind (column .rtd) fun _ => ?_
  refine leaves_bind (leaves_row c .rtd) fun _ => leaves_bind (link .txt) fun _ => leaves_bind (column .txt) fun _ => ?_
  exact leaves_row c .txt

theorem readInfo_rows (c : Column) (s : Scan) : Rows w o (OwnRow w x c) s ((readInfo w o x).run s).state := by
  have other (p : Info) (holds : Other (Own w x) p) : OwnRow w x c p := by
    intro same
    refine absurd ?_ holds.2
    rw [same]
    cases c <;> decide
  have fixed : Fixed (Own w x) := fun p _ _ _ _ holds => own_kept holds
  have behind : Leaves w o (OwnRow w x c) (Own w x) (readMem w o x >>= fun _ => readFd w o x) fun _ => Own w x :=
    leaves_bind ((leaves_readMem fixed x).wider other) fun _ => (leaves_readFd fixed x).wider other
  unfold readInfo
  cases found : x.stat with
  | none => exact rows_refl _ _ _ s
  | some buffer =>
    have user : userOf w x = w.getpwuid buffer.uid := by rw [userOf,found,Option.bind_some]
    cases opened : x.statFile with
    | none =>
      have done : Leaves w o (OwnRow w x c) (fun _ => True) (pure () : Op Unit) fun _ _ => True :=
        leaves_pure _ fun _ _ => trivial
      exact (leaves_bind (leaves_user buffer.uid) fun _ => done).ends s trivial
    | some text =>
      have line := leaves_readStat (w := w) (o := o) (P := OwnRow w x c) (B := Known (w.getpwuid buffer.uid))
        (fun _ _ _ holds => holds) text
      have reached : Leaves w o (OwnRow w x c) (Known (w.getpwuid buffer.uid)) (readStat text) fun _ => Own w x := by
        refine line.weaken (fun _ holds => holds) ?_
        rintro _ t ⟨known,scans,titled⟩
        exact ⟨⟨by simp [found],fun name same => (known name (user ▸ same)).1,text,opened,scans⟩,user ▸ known,text,opened,
          titled⟩
      exact (leaves_bind (leaves_getUserName buffer.uid) fun _ => leaves_bind reached fun _ =>
        leaves_bind (leaves_columns c) fun _ => behind).ends s trivial

theorem since_of_rows {P : Info → Prop} {s t : Scan} (rows : Rows w o P s t) {p : Info} (member : p ∈ s.since t) : P p := by
  obtain ⟨new,same,holds,_⟩ := rows
  rw [Scan.since,same,List.drop_left] at member
  exact holds p member

/-- What is handed over is printed if its name ends and it passes the filters. -/
theorem lines_of_rows {P : Info → Prop} {s t : Scan} (rows : Rows w o P s t) (compile : o.Compile w) {p : Info}
    (member : p ∈ s.since t) (shown : printed w o p = true) : row p ∈ s.lines t := by
  obtain ⟨new,same,_,lines⟩ := rows
  rw [Scan.since,same,List.drop_left] at member
  rw [Scan.lines,lines compile,List.drop_left]
  exact List.mem_map_of_mem (List.mem_filter.mpr ⟨member,shown⟩)

end Rows

section Same
variable {w : World} {o : Options} {x y : Process} {c : Column}

theorem SameBut.user (same : SameBut c x y) : userOf w y = userOf w x := by
  rw [userOf,userOf,same.stat]

theorem SameBut.path (same : SameBut c x y) : c.path y = c.path x := by
  have path (file : String) : procPath y file = procPath x file :=
    congrArg (fun name => "/proc/".toList ++ name ++ '/'::file.toList) same.name
  cases c <;> exact path _

theorem SameBut.reaches (same : SameBut c x y) (reaches : Reaches w y) : Reaches w x :=
  ⟨same.stat ▸ reaches.present,same.user (w := w) ▸ reaches.fits,same.statFile ▸ reaches.scans⟩

/-- A row of the column is made of the link and the user, if both are there. -/
theorem visible_written {link : Link} {path user : Str} {p q : Info} (answers : link.stat ≠ .failed)
    (one : p.userName = user ∧ Written link path p) (two : q.userName = user ∧ Written link path q) :
    visible p = visible q := by
  obtain ⟨user₁,written₁⟩ := one
  obtain ⟨user₂,written₂⟩ := two
  unfold Written at written₁ written₂
  cases found : link.stat with
  | failed => exact absurd found answers
  | denied =>
    simp only [found] at written₁ written₂
    obtain ⟨name₁,inode₁,type₁⟩ := written₁
    obtain ⟨name₂,inode₂,type₂⟩ := written₂
    simp only [visible,user₁,user₂,name₁,name₂,inode₁,inode₂,type₁,type₂]
  | ok buffer =>
    simp only [found] at written₁ written₂
    obtain ⟨target,read₁,name₁,inode₁,type₁⟩ := written₁
    obtain ⟨_,read₂,name₂,inode₂,type₂⟩ := written₂
    cases read₁.symm.trans read₂
    simp only [visible,user₁,user₂,name₁,name₂,inode₁,inode₂,type₁,type₂]

theorem exits_unwritten {link : Link} {path : Str} {p : Info} (exits : link.Exits) : ¬ Written link path p := by
  obtain ⟨⟨buffer,found⟩,none⟩ := exits
  simp [Written,found,none]

theorem path_fits (x : Process) (c : Column) : (c.path x ++ " (Permission denied)".toList).length < MAX_NAME_SIZE := by
  have short := x.short
  have proc : "/proc/".toList.length = 6 := by decide
  have denied : " (Permission denied)".toList.length = 20 := by decide
  have path (file : String) : (procPath x file).length = 6+(x.name.length+(file.toList.length+1)) := by
    change ("/proc/".toList ++ x.name ++ '/'::file.toList).length = _
    rw [List.append_assoc,List.length_append,List.length_append,List.length_cons,proc]
  have cwd : "cwd".toList.length = 3 := by decide
  have root : "root".toList.length = 4 := by decide
  have exe : "exe".toList.length = 3 := by decide
  rw [List.length_append,denied]
  cases c <;> (simp only [Column.path,path,cwd,root,exe,MAX_PID_SIZE,MAX_NAME_SIZE] at short ⊢; omega)

theorem written_fits {p : Info} (answers : (c.link x).stat ≠ .failed) (ends : (c.link x).Ends)
    (written : Written (c.link x) (c.path x) p) : p.name.length < MAX_NAME_SIZE := by
  unfold Written at written
  cases found : (c.link x).stat with
  | failed => exact absurd found answers
  | denied =>
    simp only [found] at written
    rw [written.1]
    exact path_fits x c
  | ok buffer =>
    simp only [found] at written
    obtain ⟨target,read,name,-⟩ := written
    rw [name]
    exact (List.length_take_le' _ _).trans_lt (ends buffer target found read)

/-- Rows that show the same pass the same filters. -/
theorem passes_same {p q : Info} (named : p.procName = q.procName) (same : visible p = visible q) :
    passes w o p = passes w o q := by
  simp only [visible,Prod.mk.injEq] at same
  simp only [passes,named,same.1,same.2.2.1]

theorem shows_own (own : Reaches w x → (c.link x).Exits ∨
    (userOf w x).isSome ∧ (c.link x).stat ≠ .failed ∧ (c.link x).Ends) : ShowsOwn w x c := by
  intro o y z s t compile sameY sameZ p memberP q memberQ rowP rowQ passed
  have rowsY := readInfo_rows (w := w) (o := o) (x := y) c s
  have rowsZ := readInfo_rows (w := w) (o := o) (x := z) c t
  obtain ⟨ownP,written₁⟩ := since_of_rows rowsY memberP rowP
  obtain ⟨ownQ,written₂⟩ := since_of_rows rowsZ memberQ rowQ
  rw [sameY.link,sameY.path] at written₁
  rw [sameZ.link,sameZ.path] at written₂
  rcases own (sameY.reaches ownP.reaches) with exits | ⟨user,answers,ends⟩
  · exact absurd written₁ (exits_unwritten exits)
  obtain ⟨user,found⟩ := Option.isSome_iff_exists.mp user
  have same : visible p = visible q := visible_written answers ⟨(ownP.known user (sameY.user.trans found)).2,written₁⟩
    ⟨(ownQ.known user (sameZ.user.trans found)).2,written₂⟩
  have named : p.procName = q.procName := by
    obtain ⟨text,opened,_,_,scans,_,one⟩ := ownP.titled
    obtain ⟨text',opened',_,_,scans',_,two⟩ := ownQ.titled
    cases (sameY.statFile.symm.trans opened).symm.trans (sameZ.statFile.symm.trans opened')
    cases scans.symm.trans scans'
    rw [one,two]
  have passed' := (passes_same (w := w) (o := o) named same).symm.trans passed
  refine ⟨lines_of_rows rowsY compile memberP ?_,lines_of_rows rowsZ compile memberQ ?_,same⟩
  · simp [printed,passed,written_fits answers ends written₁]
  · simp [printed,passed',written_fits answers ends written₂]

end Same

/-! Where a row shows more, it does so with the other links gone. -/

section Alone
variable {w : World} {x : Process} {c : Column}

def Column.alone (x : Process) : Column → Process
  | .cwd => {x with root := goneLink,exe := goneLink}
  | .rtd => {x with cwd := goneLink,exe := goneLink}
  | .txt => {x with cwd := goneLink,root := goneLink}

theorem alone_same (x : Process) (c : Column) : SameBut c x (c.alone x) := by
  cases c <;> exact ⟨rfl,rfl,rfl,rfl⟩

abbrev Grows (w : World) {α : Type} (p : Op α) : Prop :=
  Leaves w noFilters (fun _ => True) (fun _ => True) p fun _ _ => True

theorem andThen_assoc {first : Op Unit} {next : Op Unit} {rest : Unit → Op Unit} (s : Scan) :
    ((first >>= fun _ => next).run s).andThen rest = (first >>= fun _ => next >>= rest).run s := by
  rw [bind_run,bind_run]
  cases first.run s <;> rfl

theorem printed_member {next : Unit → Op Unit} (grows : ∀ a, Grows w (next a)) (s : Scan) :
    s.p ∈ ((printPinfo w noFilters >>= next).run s).state.handed := by
  have handed := (printPinfo_hands w noFilters s).2
  rw [bind_run]
  cases ran : (printPinfo w noFilters).run s with
  | stopped why t =>
    rw [ran] at handed
    simpa using handed ▸ List.mem_append_right s.handed (List.mem_singleton_self s.p)
  | returned a t =>
    rw [ran] at handed
    obtain ⟨new,same,-⟩ := ((grows a).ends t trivial).hands
    rw [andThen_returned,same,show t.handed = s.handed ++ [s.p] from handed]
    exact List.mem_append_left _ (List.mem_append_right _ (List.mem_singleton_self _))

theorem passes_unfiltered (p : Info) : passes w noFilters p = true := rfl

/-- Without filters a name that has no end is read in any case. -/
theorem printPinfo_overruns {s : Scan} (long : ¬ s.p.name.length < MAX_NAME_SIZE) :
    (printPinfo w noFilters).run s = .stopped .undefined {s with handed := s.handed ++ [s.p]} := by
  have reads (t : Scan) := within_over long t
  simp [printPinfo,matching,noFilters,reads]

theorem getMeta_gone (path : Str) (s : Scan) : (getMeta goneLink path).run s = .returned () s := rfl

theorem getMeta_run (link : Link) (path : Str) (s : Scan) (present : ¬ link.Exits) : ∃ type inode name,
    (getMeta link path).run s = .returned () {s with p := {s.p with type := type,inode := inode,name := name}} ∧
      (link.stat = .failed → name = s.p.name) ∧
      ∀ buffer target, link.stat = .ok buffer → link.target = some target → name = target.take MAX_NAME_SIZE := by
  unfold getMeta
  cases found : link.stat with
  | denied => exact ⟨_,_,_,rfl,nofun,nofun⟩
  | failed => exact ⟨s.p.type,s.p.inode,s.p.name,rfl,fun _ => rfl,nofun⟩
  | ok buffer =>
    cases read : link.target with
    | none => exact absurd ⟨⟨buffer,found⟩,read⟩ present
    | some target =>
      refine ⟨_,_,_,rfl,nofun,?_⟩
      rintro _ _ _ ⟨⟩
      rfl

/-- The rows of links that are gone show the record as it is. -/
def Info.under (p : Info) (fd : Str) : Info := {p with fd := fd}

def Column.earlier : Column → List Str
  | .cwd => []
  | .rtd => ["cwd".toList]
  | .txt => ["cwd".toList,"rtd".toList]

def Scan.stale (s : Scan) (c : Column) : Scan := {s with
  handed := s.handed ++ c.earlier.map s.p.under
  rows := s.rows ++ (c.earlier.map s.p.under).map row}

/-- The program behind the row of the column. -/
def Column.behind (w : World) (x : Process) : Column → Op Unit
  | .cwd => do
    getMeta goneLink (procPath x "root")
    setInfo fun p => {p with fd := "rtd".toList}
    printPinfo w noFilters
    getMeta goneLink (procPath x "exe")
    setInfo fun p => {p with fd := "txt".toList}
    printPinfo w noFilters
  | .rtd => do
    getMeta goneLink (procPath x "exe")
    setInfo fun p => {p with fd := "txt".toList}
    printPinfo w noFilters
  | .txt => pure ()

theorem behind_grows (c : Column) : Grows w (c.behind w x) := by
  have link (path : Str) : Grows w (getMeta goneLink path) := leaves_pure _ fun _ _ => trivial
  have column (fd : Str) : Grows w (setInfo fun p => {p with fd := fd}) := leaves_setInfo _ fun _ _ => trivial
  have shown : Grows w (printPinfo w noFilters) := leaves_printPinfo w noFilters fun _ _ => trivial
  have last : Grows w (Column.rtd.behind w x) :=
    leaves_bind (link _) fun _ => leaves_bind (column _) fun _ => shown
  cases c with
  | cwd => exact leaves_bind (link _) fun _ => leaves_bind (column _) fun _ => leaves_bind shown fun _ => last
  | rtd => exact last
  | txt => exact leaves_pure _ fun _ _ => trivial

theorem stale_run (s : Scan) (fits : s.p.name.length < MAX_NAME_SIZE) : (printPinfo w noFilters).run s =
    .returned () {s with handed := s.handed ++ [s.p],rows := s.rows ++ [row s.p]} :=
  printPinfo_run (noFilters_compile w) fits

/-- The links before that of the column show the record as it was. -/
theorem readLinks_alone (present : ¬ (c.link x).Exits) (s : Scan) (fits : s.p.name.length < MAX_NAME_SIZE) :
    ∃ type inode name, (readLinks w noFilters (c.alone x)).run s = (printPinfo w noFilters >>= fun _ => c.behind w x).run
        {s.stale c with p := {s.p with fd := c.fd,type := type,inode := inode,name := name}} ∧
      ((c.link x).stat = .failed → name = s.p.name) ∧
      ∀ buffer target, (c.link x).stat = .ok buffer → (c.link x).target = some target →
        name = target.take MAX_NAME_SIZE := by
  cases c with
  | cwd =>
    obtain ⟨type,inode,name,ran,told⟩ :=
      getMeta_run x.cwd (procPath x "cwd") {s with p := s.p.under "cwd".toList} present
    refine ⟨type,inode,name,?_,told⟩
    rw [readLinks,bind_run,setInfo_run,andThen_returned,bind_run]
    change ((getMeta x.cwd (procPath x "cwd")).run {s with p := s.p.under "cwd".toList}).andThen _ = _
    rw [ran,andThen_returned]
    simp only [Scan.stale,Column.earlier,List.map_nil,List.append_nil]
    rfl
  | rtd =>
    let one : Scan := {s with p := s.p.under "cwd".toList}
    let shown : Scan := {one with handed := s.handed ++ [one.p],rows := s.rows ++ [row one.p]}
    obtain ⟨type,inode,name,ran,told⟩ := getMeta_run x.root (procPath x "root") shown present
    refine ⟨type,inode,name,?_,told⟩
    rw [readLinks,bind_run,setInfo_run,andThen_returned,bind_run]
    change ((getMeta goneLink _).run one).andThen _ = _
    rw [getMeta_gone,andThen_returned,bind_run,stale_run one fits,andThen_returned,bind_run]
    change ((getMeta x.root (procPath x "root")).run shown).andThen _ = _
    rw [ran,andThen_returned,bind_run,setInfo_run,andThen_returned]
    rfl
  | txt =>
    let one : Scan := {s with p := s.p.under "cwd".toList}
    let two : Scan := {s with
      p := s.p.under "rtd".toList
      handed := s.handed ++ [one.p]
      rows := s.rows ++ [row one.p]}
    let shown : Scan := {two with handed := two.handed ++ [two.p],rows := two.rows ++ [row two.p]}
    obtain ⟨type,inode,name,ran,told⟩ := getMeta_run x.exe (procPath x "exe") shown present
    refine ⟨type,inode,name,?_,told⟩
    rw [readLinks,bind_run,setInfo_run,andThen_returned,bind_run]
    change ((getMeta goneLink _).run one).andThen _ = _
    rw [getMeta_gone,andThen_returned,bind_run,stale_run one fits,andThen_returned,bind_run]
    change ((getMeta goneLink _).run _).andThen _ = _
    rw [getMeta_gone,andThen_returned,bind_run,setInfo_run,andThen_returned,bind_run]
    change ((printPinfo w noFilters).run two).andThen _ = _
    rw [stale_run two fits,andThen_returned,bind_run]
    change ((getMeta x.exe (procPath x "exe")).run shown).andThen _ = _
    have last (t : Scan) : (printPinfo w noFilters >>= fun _ => Column.txt.behind w x).run t =
        (printPinfo w noFilters).run t := by
      rw [bind_run]
      cases (printPinfo w noFilters).run t <;> rfl
    have handed : shown.handed = (s.stale .txt).handed := List.append_assoc ..
    have rows : shown.rows = (s.stale .txt).rows := List.append_assoc ..
    rw [ran,andThen_returned,bind_run,setInfo_run,andThen_returned,last,handed,rows]
    rfl

/-- Rows of one process for different links differ. -/
theorem rows_apart {p q : Info} (pid : p.pid = q.pid) (command : p.procName = q.procName)
    (user : p.userName = q.userName) (linked : p.fd ∈ linkFds) (linked' : q.fd ∈ linkFds) (same : row p = row q) :
    p.fd = q.fd := by
  have wide : ∀ fd ∈ linkFds, (column 20 fd).length = 20 := by decide
  have apart : ∀ a ∈ linkFds, ∀ b ∈ linkFds, column 20 a = column 20 b → a = b := by decide
  simp only [row,List.append_assoc,pid,command,user] at same
  have rest := List.append_cancel_left (List.append_cancel_left (List.append_cancel_left same))
  exact apart _ linked _ linked' (List.append_inj_left rest ((wide _ linked).trans (wide _ linked').symm))

theorem getUserName_run {uid : BitVec 32} (fits : ∀ name, w.getpwuid uid = some name → name.length < MAX_NAME_SIZE)
    (s : Scan) : ∃ user said, (getUserName w uid).run s =
      .returned () {s with p := {s.p with userName := user},complaints := said} ∧
      (w.getpwuid uid = none → user = s.p.userName) := by
  unfold getUserName
  cases known : w.getpwuid uid with
  | none => exact ⟨s.p.userName,_,complain_run _ s,fun _ => rfl⟩
  | some pwName =>
    refine ⟨pwName,s.complaints,?_,nofun⟩
    simp only [bind_run,within_fits (fits pwName known),andThen_returned,setInfo_run]

/-- A process that is reached has its pid, name and user set before the rows. -/
theorem reached_run (o : Options) (reaches : Reaches w x) (s : Scan) : ∃ t : Scan,
    (∀ y : Process, y.stat = x.stat → y.statFile = x.statFile → (readInfo w o y).run s =
      (readLinks w o y >>= fun _ => readMem w o y >>= fun _ => readFd w o y).run t) ∧
    t.handed = s.handed ∧ t.rows = s.rows ∧ t.p.name = s.p.name ∧
      (userOf w x = none → t.p.userName = s.p.userName) := by
  obtain ⟨present,fits,text,opened,pid,word,scanned,short,nonempty⟩ := reaches
  obtain ⟨buffer,found⟩ := Option.isSome_iff_exists.mp present
  have user : userOf w x = w.getpwuid buffer.uid := by rw [userOf,found,Option.bind_some]
  have read (t : Scan) : (readStat text).run t =
      .returned () {t with p := {t.p with pid := pid,procName := (word.drop 1).dropLast}} := by
    simp only [readStat,scanned,bind_run,setInfo_run,andThen_returned,within_fits short,if_neg nonempty]
  rw [user] at fits ⊢
  obtain ⟨name,said,looked,unknown⟩ := getUserName_run fits s
  refine ⟨{s with p := {s.p with userName := name,pid := pid,procName := (word.drop 1).dropLast},complaints := said},
    ?_,rfl,rfl,rfl,unknown⟩
  intro y stat statFile
  simp only [readInfo,stat.trans found,statFile.trans opened]
  rw [bind_run,looked,andThen_returned,bind_run,read,andThen_returned]

theorem linked_column (c : Column) : c.fd ∈ linkFds := by cases c <;> decide

theorem earlier_other {fd : Str} (member : fd ∈ c.earlier) : fd ∈ linkFds ∧ fd ≠ c.fd := by
  revert member fd
  cases c <;> decide

/-- A row of the column with the links before it gone, from a record with a user and a name of its own. -/
theorem alone_row (reaches : Reaches w x) (present : ¬ (c.link x).Exits) (s : Scan)
    (fits : s.p.name.length < MAX_NAME_SIZE) (fresh : s.handed = []) (blank : s.rows = []) :
    ∃ p ∈ s.since ((readInfo w noFilters (c.alone x)).run s).state, p.fd = c.fd ∧
      (userOf w x = none → p.userName = s.p.userName) ∧ ((c.link x).stat = .failed → p.name = s.p.name) ∧
      (row p ∈ s.lines ((readInfo w noFilters (c.alone x)).run s).state → (c.link x).Ends) := by
  have same := alone_same x c
  obtain ⟨t,ran,handed,rows,name,user⟩ := reached_run noFilters reaches s
  obtain ⟨type,inode,own,shown,stale,written⟩ := readLinks_alone (w := w) present t (name ▸ fits)
  refine ⟨{t.p with fd := c.fd,type := type,inode := inode,name := own},?_,rfl,user,fun gone => (stale gone).trans name,?_⟩
  all_goals rw [ran (c.alone x) same.stat same.statFile,bind_run,shown]
  · have fixed : Fixed fun _ => True := fun _ _ _ _ _ _ => trivial
    have rest : Grows w (readMem w noFilters (c.alone x) >>= fun _ => readFd w noFilters (c.alone x)) :=
      leaves_bind ((leaves_readMem fixed _).wider fun _ _ => trivial) fun _ =>
        (leaves_readFd fixed _).wider fun _ _ => trivial
    rw [andThen_assoc,Scan.since,fresh,List.length_nil,List.drop_zero]
    exact printed_member (fun _ => leaves_bind (behind_grows c) fun _ => rest) _
  · intro line buffer target found read
    by_contra long
    have cut : ¬ own.length < MAX_NAME_SIZE := by
      rw [written buffer target found read,List.length_take,min_eq_left (Nat.le_of_not_lt long)]
      exact Nat.lt_irrefl _
    rw [bind_run,printPinfo_overruns cut] at line
    have stopped : row {t.p with fd := c.fd,type := type,inode := inode,name := own} ∈
        (c.earlier.map t.p.under).map row := by simpa [Scan.lines,Scan.stale,rows,blank] using line
    simp only [List.map_map,List.mem_map,Function.comp_apply] at stopped
    obtain ⟨fd,member,equal⟩ := stopped
    obtain ⟨linked,other⟩ := earlier_other member
    have same : (t.p.under fd).fd = c.fd := rows_apart (q := {t.p with fd := c.fd,type := type,inode := inode,name := own})
      rfl rfl rfl linked (linked_column c) equal
    exact other same

theorem link_row_iff (w : World) (x : Process) (c : Column) : ShowsOwn w x c ↔ (Reaches w x → (c.link x).Exits ∨
    (userOf w x).isSome ∧ (c.link x).stat ≠ .failed ∧ (c.link x).Ends) := by
  constructor
  · intro own reaches
    by_contra wrong
    obtain ⟨present,fails⟩ := not_or.mp wrong
    let marked (mark : Str) : Scan := {zeroes with p := {zeroes.p with userName := mark,name := mark}}
    obtain ⟨p,memberP,rowP,userP,nameP,endsP⟩ :=
      alone_row reaches present (marked "a".toList) (by decide) rfl rfl
    obtain ⟨q,memberQ,rowQ,userQ,nameQ,_⟩ := alone_row reaches present (marked "b".toList) (by decide) rfl rfl
    obtain ⟨printed,_,same⟩ := own noFilters _ _ _ _ (noFilters_compile w) (alone_same x c) (alone_same x c)
      p memberP q memberQ rowP rowQ rfl
    simp only [visible,Prod.mk.injEq] at same
    obtain ⟨-,-,name,user⟩ := same
    refine fails ⟨?_,?_,endsP printed⟩
    · by_contra known
      have unknown : userOf w x = none := by simpa using known
      rw [userP unknown,userQ unknown] at user
      revert user
      decide
    · intro gone
      rw [nameP gone,nameQ gone] at name
      revert name
      decide
  · exact shows_own

end Alone

def rootOnly : World := ⟨fun _ => some "root".toList,fun _ => none,none⟩

/-- A process whose working directory and root are as given. -/
def shell (cwd root : Link) : Process :=
  {idle with stat := some ⟨S_IFDIR,7,0⟩,statFile := some "7 (sh) S".toList,cwd := cwd,root := root}

def directory (target : Str) : Link := ⟨.ok ⟨S_IFDIR,2,0⟩,some target⟩

theorem shell_cwd : ShowsOwn rootOnly (shell (directory "/a".toList) goneLink) .cwd :=
  (link_row_iff rootOnly (shell (directory "/a".toList) goneLink) .cwd).mpr fun _ => .inr ⟨rfl,nofun,by
    rintro _ _ _ ⟨⟩
    decide⟩

/-- Where root is gone its row repeats that of cwd. -/
theorem shell_rtd : ¬ ShowsOwn rootOnly (shell goneLink goneLink) .rtd := by
  intro own
  let shown (target : Str) : Info := ⟨7,"sh".toList,"root".toList,"rtd".toList,"DIR".toList,2,target⟩
  have a : shown "/a".toList ∈ zeroes.since ((readInfo rootOnly noFilters (shell (directory "/a".toList) goneLink)).run
      zeroes).state := by decide
  have b : shown "/b".toList ∈ zeroes.since ((readInfo rootOnly noFilters (shell (directory "/b".toList) goneLink)).run
      zeroes).state := by decide
  obtain ⟨_,_,same⟩ := own noFilters (shell (directory "/a".toList) goneLink) (shell (directory "/b".toList) goneLink)
    zeroes zeroes (noFilters_compile rootOnly) ⟨rfl,rfl,rfl,rfl⟩ ⟨rfl,rfl,rfl,rfl⟩ _ a _ b rfl rfl rfl
  revert same
  decide

end Unixprog.Hw1
