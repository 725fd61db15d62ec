import Mathlib.Data.List.DropRight
import Unixprog.Hw1.Filters
import Unixprog.Hw1.Sizes
import Unixprog.Library.Tokens

/-! The listing as a table: from its text the cells of every record can be read back. -/
namespace Unixprog.Hw1
open CStrings Aborts

/-! A reader of the table. -/

def trim (text : Str) : Str := text.rdropWhile (· = ' ')

/-- The columns have these widths, the last one takes the rest. -/
def cut : List Nat → Str → List Str
  | [],line => [trim line]
  | width::widths,line => trim (line.take width)::cut widths (line.drop width)

def readTable (text : Str) : List (List Str) := ((text.splitOn '\n').dropLast).map (cut [40,20,20,20,20,20])

/-- The cells of a record; a node that is not known is left blank. -/
def cells (p : Info) : List Str := [p.procName,decimal p.pid,p.userName,p.fd,p.type,
  if p.inode = -1 ∨ p.type = "unknown".toList then [] else decimal p.inode,p.name]

def headings : List Str :=
  ["COMMAND".toList,"PID".toList,"USER".toList,"FD".toList,"TYPE".toList,"NODE".toList,"NAME".toList]

abbrev Flat (text : Str) : Prop := '\n' ∉ text

/-- Every cell but the last fits its column, and none has a line break. -/
structure Info.Tabular (p : Info) : Prop extends Info.Sized p where
  command : p.procName.length ≤ 40 ∧ Flat p.procName
  user : p.userName.length ≤ 20 ∧ Flat p.userName
  column : Flat p.fd
  kind : p.type.length ≤ 20 ∧ Flat p.type
  file : Flat p.name
  number : -2^31 ≤ p.pid ∧ p.pid < 2^31
  node : -2^31 ≤ p.inode ∧ p.inode < 2^31

/-! The reader undoes the format. -/

theorem trim_blanks (text : Str) (n : Nat) : trim (text ++ List.replicate n ' ') = trim text := by
  unfold trim
  induction n with
  | zero => simp
  | succ n ih => rw [List.replicate_succ',← List.append_assoc,List.rdropWhile_concat_pos _ _ _ (by simp),ih]

theorem trim_column (width : Nat) (text : Str) : trim (column width text) = trim text := trim_blanks text _

theorem column_length {width : Nat} {text : Str} (fits : text.length ≤ width) : (column width text).length = width := by
  rw [column,List.length_rightpad,max_eq_left fits]

theorem cut_column {width : Nat} {text : Str} (fits : text.length ≤ width) (widths : List Nat) (rest : Str) :
    cut (width::widths) (column width text ++ rest) = trim text::cut widths rest := by
  have length := column_length fits
  rw [cut,List.take_left' length,List.drop_left' length,trim_column]

theorem flat_append {a b : Str} : Flat (a ++ b) ↔ Flat a ∧ Flat b := by rw [Flat,List.mem_append,not_or]

theorem flat_column {width : Nat} {text : Str} (flat : Flat text) : Flat (column width text) := by
  refine flat_append.mpr ⟨flat,fun member => ?_⟩
  have blank := List.eq_of_mem_replicate member
  revert blank
  decide

theorem flat_decimal (n : Int) : Flat (decimal n) := by
  have digits (k : Nat) : Flat (toString k).toList := by
    rw [toString_digits]
    intro member
    cases toDigits_dec k _ member
  cases n with
  | ofNat k => exact digits k
  | negSucc k =>
    change Flat ("-" ++ toString (k+1)).toList
    rw [String.toList_append]
    exact flat_append.mpr ⟨by decide,digits (k+1)⟩

def nodeText (p : Info) : Str := if p.inode = -1 ∨ p.type = "unknown".toList then " ".toList else decimal p.inode

def rowLine (p : Info) : Str :=
  column 40 p.procName ++ (column 20 (decimal p.pid) ++ (column 20 p.userName ++ (column 20 p.fd ++ (column 20 p.type ++
    (column 20 (nodeText p) ++ column 20 p.name)))))

theorem row_line (p : Info) : row p = rowLine p ++ ['\n'] := by
  simp only [row,rowLine,nodeText,List.append_assoc]

section Rows
variable {p : Info} (tabular : p.Tabular)
include tabular

theorem flat_rowLine : Flat (rowLine p) := by
  have node : Flat (nodeText p) := by
    unfold nodeText
    split
    · decide
    · exact flat_decimal _
  simp only [rowLine,flat_append]
  exact ⟨flat_column tabular.command.2,flat_column (flat_decimal _),flat_column tabular.user.2,flat_column tabular.column,
    flat_column tabular.kind.2,flat_column node,flat_column tabular.file⟩

theorem cut_rowLine : cut [40,20,20,20,20,20] (rowLine p) = (cells p).map trim := by
  have pid : (decimal p.pid).length ≤ 20 := (decimal_length tabular.number.1 tabular.number.2).trans (by omega)
  have fd : p.fd.length ≤ 20 := tabular.fd.le.trans (by decide)
  have node : (nodeText p).length ≤ 20 := by
    unfold nodeText
    split
    · decide
    · exact (decimal_length tabular.node.1 tabular.node.2).trans (by omega)
  have blank : trim (nodeText p) = trim (if p.inode = -1 ∨ p.type = "unknown".toList then [] else decimal p.inode) := by
    unfold nodeText
    split
    · rfl
    · rfl
  rw [rowLine,cut_column tabular.command.1,cut_column pid,cut_column tabular.user.1,cut_column fd,cut_column tabular.kind.1,
    cut_column node,cut,trim_column,blank]
  rfl

end Rows

def headerLine : Str :=
  column 40 "COMMAND".toList ++ (column 20 "PID".toList ++ (column 20 "USER".toList ++ (column 20 "FD".toList ++
    (column 20 "TYPE".toList ++ (column 20 "NODE".toList ++ column 20 "NAME".toList)))))

theorem header_line : header = headerLine ++ ['\n'] := by
  simp only [header,headerLine,List.append_assoc]

theorem cut_header : cut [40,20,20,20,20,20] headerLine = headings := by
  rw [headerLine,cut_column (by decide),cut_column (by decide),cut_column (by decide),cut_column (by decide),
    cut_column (by decide),cut_column (by decide),cut,trim_column]
  rfl

theorem flat_header : Flat headerLine := by
  simp only [headerLine,flat_append]
  exact ⟨flat_column (by decide),flat_column (by decide),flat_column (by decide),flat_column (by decide),
    flat_column (by decide),flat_column (by decide),flat_column (by decide)⟩

theorem readTable_rows {listed : List Info} (tabular : ∀ p ∈ listed, p.Tabular) :
    readTable (header::listed.map row).flatten = headings::listed.map fun p => (cells p).map trim := by
  have rows : header::listed.map row = (headerLine::listed.map rowLine).map (· ++ ['\n']) := by
    rw [List.map_cons,header_line,List.map_map]
    exact congrArg _ (List.map_congr_left fun p _ => row_line p)
  have flat : ∀ line ∈ headerLine::listed.map rowLine, Flat line :=
    List.forall_mem_cons.mpr ⟨flat_header,List.forall_mem_map.mpr fun p member => flat_rowLine (tabular p member)⟩
  rw [readTable,rows,splitOn_lines flat,List.dropLast_concat,List.map_cons,cut_header,List.map_map]
  exact congrArg _ (List.map_congr_left fun p member => cut_rowLine (tabular p member))

/-! What the system must report for the records to fit. -/

structure Process.Tabular (x : Process) : Prop extends Process.Fits x where
  words : ∀ text pid word, x.statFile = some text → scanStat text = some (pid,word) → word.length ≤ 42
  targets : ∀ target, x.cwd.target = some target ∨ x.root.target = some target ∨ x.exe.target = some target → Flat target
  files : ∀ lines, x.maps = some lines → ∀ line ∈ lines, ∀ token, pathname line = some token → Flat (chomp token)
  opened : ∀ dir, x.fds = some dir → ∀ e ∈ dir.entries, isNum e.name → ∀ target, e.target = some target → Flat target

structure World.Tabular (w : World) : Prop extends World.Fits w where
  named : ∀ uid name, w.getpwuid uid = some name → name.length ≤ 20 ∧ Flat name
  tabular : ∀ processes, w.processes = some processes → ∀ x ∈ processes, isNum x.name → x.Tabular

/-! The functions. Of the records that they hand over, all of them tabular, they print those that pass. -/

def Prints (w : World) (o : Options) (s t : Scan) : Prop := ∃ listed, t.handed = s.handed ++ listed ∧
  t.rows = s.rows ++ (listed.filter (passes w o)).map row ∧ ∀ p ∈ listed, p.Tabular

section Rules
variable {w : World} {o : Options} {before : Info → Prop}

theorem prints_silent {s t : Scan} (handed : t.handed = s.handed) (rows : t.rows = s.rows) : Prints w o s t :=
  ⟨[],by simp [handed],by simp [rows],by simp⟩

theorem prints_refl (s : Scan) : Prints w o s s := prints_silent rfl rfl

theorem prints_trans (s t u : Scan) (one : Prints w o s t) (two : Prints w o t u) : Prints w o s u := by
  obtain ⟨first,handed,rows,tabular⟩ := one
  obtain ⟨second,handed',rows',tabular'⟩ := two
  refine ⟨first ++ second,by rw [handed',handed,List.append_assoc],?_,List.forall_mem_append.mpr ⟨tabular,tabular'⟩⟩
  rw [rows',rows,List.filter_append,List.map_append,List.append_assoc]

abbrev Tables (w : World) (o : Options) (before : Info → Prop) {α : Type} (p : Op α) (after : α → Info → Prop) : Prop :=
  Keeps (Prints w o) (fun s => before s.p) p fun a s => after a s.p

theorem tables_pure {α : Type} {after : α → Info → Prop} (a : α) (holds : ∀ p, before p → after a p) :
    Tables w o before (pure a) after := keeps_pure prints_refl a fun s => holds s.p

theorem tables_bind {α β : Type} {middle : α → Info → Prop} {after : β → Info → Prop} {first : Op α} {next : α → Op β}
    (one : Tables w o before first middle) (two : ∀ a, Tables w o (middle a) (next a) after) :
    Tables w o before (first >>= next) after := keeps_bind prints_trans one two

theorem tables_complain (complaint : Complaint) : Tables w o before (complain complaint) fun _ => before :=
  keeps_change _ (fun _ _ => prints_silent rfl rfl) fun _ holds => holds

theorem tables_abort {α : Type} {after : α → Info → Prop} (why : Stop) : Tables w o before (abort why : Op α) after :=
  keeps_abort prints_refl why

theorem tables_error {α : Type} {after : α → Info → Prop} (what : String) : Tables w o before (error what : Op α) after :=
  tables_bind (tables_complain _) fun _ => tables_abort _

theorem tables_within {β : Type} {after : β → Info → Prop} {size : Nat} {text : Str} {next : Str → Op β}
    (rest : text.length < size → Tables w o before (next text) after) : Tables w o before (within size text >>= next) after := by
  unfold within
  split
  next fits => exact rest fits
  next => exact tables_abort _

theorem tables_setInfo (after : Info → Prop) {f : Info → Info} (holds : ∀ p, before p → after (f p)) :
    Tables w o before (setInfo f) fun _ => after :=
  keeps_change _ (fun _ _ => prints_silent rfl rfl) fun s => holds s.p

theorem tables_current {β : Type} {after : β → Info → Prop} {next : Scan → Op β}
    (rest : ∀ s, before s.p → Tables w o (· = s.p) (next s) after) : Tables w o before (current >>= next) after :=
  keeps_current fun s holds => (rest s holds).weaken (fun _ same => congrArg Scan.p same) fun _ _ done => done

theorem tables_printPinfo (compile : o.Compile w) : Tables w o Info.Tabular (printPinfo w o) fun _ => Info.Tabular := by
  have runs (s : Scan) (tabular : s.p.Tabular) := printPinfo_run compile (s := s) tabular.name
  constructor
  · intro s tabular
    rw [runs s tabular]
    refine ⟨[s.p],rfl,?_,List.forall_mem_singleton.mpr tabular⟩
    cases shown : passes w o s.p <;> simp [shown,Aborts.Result.state]
  · intro s a t tabular ran
    rw [runs s tabular] at ran
    cases ran
    exact tabular

end Rules

section Functions
variable {w : World} {o : Options}

abbrev Fills (w : World) (o : Options) {α : Type} (p : Op α) : Prop := Tables w o Info.Tabular p fun _ => Info.Tabular

theorem fills_getUserName (users : w.Tabular) (uid : BitVec 32) : Fills w o (getUserName w uid) := by
  unfold getUserName
  cases found : w.getpwuid uid with
  | none => exact tables_complain _
  | some pwName =>
    refine tables_within fun short => tables_setInfo _ fun p tabular => ?_
    exact {tabular with userName := short, user := users.named uid pwName found}

theorem kind_known {type : Str} (member : type ∈ typeNames) : type.length < TYPE_SIZE ∧ type.length ≤ 20 ∧ Flat type := by
  simp only [typeNames,List.mem_cons,List.not_mem_nil,or_false] at member
  rcases member with rfl | rfl | rfl | rfl | rfl | rfl <;> decide

theorem linkType_kind (mode : BitVec 32) (ino : BitVec 64) :
    (linkType mode (toInt ino)).length ≤ 20 ∧ Flat (linkType mode (toInt ino)) := by
  have numbered (word : Str) (short : word.length ≤ 7) (flat : Flat word) :
      (word ++ decimal (toInt ino) ++ [']']).length ≤ 20 ∧ Flat (word ++ decimal (toInt ino) ++ [']']) := by
    have digits := toInt_decimal ino
    refine ⟨?_,flat_append.mpr ⟨flat_append.mpr ⟨flat,flat_decimal _⟩,by decide⟩⟩
    rw [List.length_append,List.length_append,List.length_singleton]
    omega
  have pipe := numbered "FIFO[".toList (by decide) (by decide)
  have socket := numbered "socket[".toList (by decide) (by decide)
  unfold linkType
  split_ifs
  · decide
  · decide
  · decide
  · exact pipe
  · exact socket
  · decide

theorem flat_path {x : Process} (digits : isNum x.name = true) {file : String} (flat : Flat file.toList) : Flat (procPath x file) := by
  have name : Flat x.name := by
    intro member
    cases List.all_eq_true.mp digits _ member
  refine flat_append.mpr ⟨flat_append.mpr ⟨by decide,name⟩,?_⟩
  exact List.not_mem_cons_of_ne_of_not_mem (by decide) flat

theorem toInt_node (ino : BitVec 64) : -2^31 ≤ toInt ino ∧ toInt ino < 2^31 := ⟨BitVec.le_toInt _,BitVec.toInt_lt⟩

theorem no_node : -2^31 ≤ (-1 : Int) ∧ (-1 : Int) < 2^31 := by decide

theorem fills_getMeta {link : Link} (fits : link.Fits) (flat : ∀ target, link.target = some target → Flat target) {path : Str}
    (short : (path ++ " (Permission denied)".toList).length < MAX_NAME_SIZE) (plain : Flat path) :
    Fills w o (getMeta link path) := by
  unfold getMeta
  cases link.stat with
  | denied =>
    have unknown := kind_known (show "unknown".toList ∈ typeNames by decide)
    refine tables_setInfo _ fun p tabular => ?_
    exact {tabular with
      type := unknown.1
      name := short
      kind := unknown.2
      file := flat_append.mpr ⟨plain,by decide⟩
      node := no_node}
  | failed => exact tables_pure _ fun _ tabular => tabular
  | ok buffer =>
    have cleared : Fills w o (setInfo fun p => {p with name := []}) :=
      tables_setInfo _ fun p tabular => {tabular with name := Nat.zero_lt_succ _, file := List.not_mem_nil}
    refine tables_bind cleared fun _ => ?_
    cases found : link.target with
    | none => exact tables_error _
    | some target =>
      refine tables_setInfo _ fun p tabular => ?_
      exact {tabular with
        type := linkType_length _ _
        name := (List.length_take_le' _ _).trans_lt (fits target found)
        kind := linkType_kind _ _
        file := fun member => flat target found (List.mem_of_mem_take member)
        node := toInt_node _}

theorem fills_column {fd : Str} (short : fd.length < FD_SIZE) (flat : Flat fd) :
    Fills w o (setInfo fun p => {p with fd := fd}) :=
  tables_setInfo _ fun _ tabular => {tabular with fd := short, column := flat}

theorem fills_readLinks (compile : o.Compile w) {x : Process} (fits : x.Tabular) (digits : isNum x.name = true) :
    Fills w o (readLinks w o x) := by
  have shown := tables_printPinfo compile
  unfold readLinks
  refine tables_bind (fills_column (by decide) (by decide)) fun _ => ?_
  refine tables_bind (fills_getMeta fits.cwd (fun _ found => fits.targets _ (.inl found)) (denied_length x (by decide))
    (flat_path digits (by decide))) fun _ => tables_bind shown fun _ => ?_
  refine tables_bind (fills_getMeta fits.root (fun _ found => fits.targets _ (.inr (.inl found))) (denied_length x (by decide))
    (flat_path digits (by decide))) fun _ => ?_
  refine tables_bind (fills_column (by decide) (by decide)) fun _ => tables_bind shown fun _ => ?_
  refine tables_bind (fills_getMeta fits.exe (fun _ found => fits.targets _ (.inr (.inr found))) (denied_length x (by decide))
    (flat_path digits (by decide))) fun _ => ?_
  exact tables_bind (fills_column (by decide) (by decide)) fun _ => shown

theorem flat_cutMarker {old : Nat} {name : Str} (flat : Flat name) : Flat (cutMarker old name) :=
  fun member => flat (List.mem_of_mem_take member)

theorem flat_chomp {text : Str} (flat : Flat text) : Flat (chomp text) := by
  unfold chomp
  split
  · exact fun member => flat (List.mem_of_mem_dropLast member)
  · exact flat

theorem fills_memName {token : Option Str} (flat : ∀ text, token = some text → Flat (chomp text)) :
    Fills w o (memName token) := by
  have named {fd name : Str} (column : fd.length < FD_SIZE) (plain : Flat fd) (short : name.length < MAX_NAME_SIZE)
      (flat : Flat name) : Fills w o (setInfo fun p => {p with fd := fd,name := name}) :=
    tables_setInfo _ fun _ tabular => {tabular with fd := column, column := plain, name := short, file := flat}
  unfold memName
  cases token with
  | none => exact tables_error _
  | some token =>
    have plain := flat token rfl
    refine tables_within fun short => keeps_ite _ (fun _ => tables_error _) fun _ => tables_current fun s tabular => ?_
    have chomped : (chomp token).length < MAX_NAME_SIZE := (chomp_length token).trans_lt short
    have same {p : Op Unit} (fills : Fills w o p) : Tables w o (· = s.p) p fun _ => Info.Tabular :=
      fills.weaken (fun _ same => same ▸ tabular) fun _ _ done => done
    refine keeps_ite _ (fun _ => tables_within fun _ => same (named (by decide) (by decide) ?_ (flat_cutMarker plain)))
      fun _ => same (named (by decide) (by decide) chomped plain)
    exact (cutMarker_length _ _).trans_lt chomped

theorem atoi_node (text : Str) : -2^31 ≤ atoi text ∧ atoi text < 2^31 := ⟨BitVec.le_toInt _,BitVec.toInt_lt⟩

theorem fills_memLines (compile : o.Compile w) {lines : List Str} (dict : List Int)
    (flat : ∀ line ∈ lines, ∀ token, pathname line = some token → Flat (chomp token)) : Fills w o (memLines w o dict lines) := by
  induction lines generalizing dict with
  | nil => exact tables_pure _ fun _ tabular => tabular
  | cons line rest ih =>
    have entered (text : Option Str) : Fills w o (setInfo fun p => {p with inode := (text.map atoi).getD p.inode}) := by
      refine tables_setInfo _ fun p tabular => ?_
      cases text with
      | none => exact tabular
      | some text => exact {tabular with node := atoi_node text}
    have named := fills_memName (w := w) (o := o) (flat line List.mem_cons_self)
    have later (dict : List Int) := ih dict fun other member => flat other (List.mem_cons_of_mem _ member)
    refine tables_bind (keeps_ite _ (fun _ => tables_pure _ fun _ tabular => tabular) fun _ => ?_) fun dict => later dict
    refine tables_bind (entered _) fun _ => tables_bind named fun _ => tables_bind (tables_printPinfo compile) fun _ => ?_
    exact tables_pure _ fun _ tabular => tabular

theorem fills_readMem (compile : o.Compile w) {x : Process} (fits : x.Tabular) : Fills w o (readMem w o x) := by
  have regular := kind_known (show "REG".toList ∈ typeNames by decide)
  have typed : Fills w o (setInfo fun p => {p with type := "REG".toList}) :=
    tables_setInfo _ fun p tabular => {tabular with type := regular.1, kind := regular.2}
  refine tables_bind typed fun _ => tables_current fun s tabular => ?_
  cases found : x.maps with
  | none =>
    refine tables_pure _ ?_
    rintro _ rfl
    exact tabular
  | some lines =>
    refine (fills_memLines compile [s.p.inode] (fits.files lines found)).weaken ?_ fun _ _ done => done
    exact fun _ same => same ▸ tabular

theorem fills_fdName {target : Option Str} (flat : ∀ text, target = some text → Flat text) : Fills w o (fdName target) := by
  have renamed {name : Str} (short : name.length < MAX_NAME_SIZE) (flat : Flat name) :
      Fills w o (setInfo fun p => {p with name := name}) :=
    tables_setInfo _ fun _ tabular => {tabular with name := short, file := flat}
  refine tables_bind (renamed (Nat.zero_lt_succ _) List.not_mem_nil) fun _ => ?_
  cases target with
  | none => exact tables_error _
  | some target =>
    refine tables_within fun short => keeps_ite _ (fun _ => tables_abort _) fun _ => ?_
    refine renamed ((chomp_length _).trans_lt short) (flat_chomp fun member => ?_)
    exact flat target rfl (List.mem_of_mem_take member)

theorem fdType_known {mode : BitVec 32} {type : Str} (known : fdType mode = some type) : type ∈ typeNames := by
  unfold fdType at known
  split_ifs at known
  all_goals (cases known; decide)

theorem fills_fdMeta {name : Str} (digits : isNum name = true) (buffer : Stat) : Fills w o (fdMeta name buffer) := by
  have plain : Flat name := by
    intro member
    cases List.all_eq_true.mp digits _ member
  refine tables_within fun short => ?_
  have entered : Fills w o (setInfo fun p => {p with inode := toInt buffer.ino,fd := name}) :=
    tables_setInfo _ fun p tabular => {tabular with fd := short, column := plain, node := toInt_node _}
  refine tables_bind entered fun _ => ?_
  cases known : fdType buffer.mode with
  | some type =>
    have fits := kind_known (fdType_known known)
    exact tables_setInfo _ fun p tabular => {tabular with type := fits.1, kind := fits.2}
  | none =>
    have unknown := kind_known (show "unknown".toList ∈ typeNames by decide)
    refine tables_setInfo _ fun p tabular => ?_
    exact {tabular with type := unknown.1, kind := unknown.2, name := Nat.zero_lt_succ _, file := List.not_mem_nil}

theorem fills_fdAccess (mode : BitVec 32) : Fills w o (fdAccess mode) := by
  unfold fdAccess
  cases letter : accessSuffix mode with
  | none => exact tables_error _
  | some suffix =>
    have plain : Flat suffix := by
      have among := accessSuffix_letter letter
      simp only [List.mem_cons,List.not_mem_nil,or_false] at among
      rcases among with rfl | rfl | rfl <;> decide
    refine tables_current fun s tabular => tables_within fun short => tables_setInfo _ ?_
    rintro p rfl
    refine {tabular with fd := short, column := flat_append.mpr ⟨tabular.column,plain⟩, name := ?_, file := ?_}
    · dsimp only
      split
      · exact (cutMarker_length _ _).trans_lt tabular.name
      · exact tabular.name
    · dsimp only
      split
      · exact flat_cutMarker tabular.file
      · exact tabular.file

theorem fills_fdEntry (compile : o.Compile w) {e : Entry} (digits : isNum e.name = true)
    (flat : ∀ target, e.target = some target → Flat target) : Fills w o (fdEntry w o e) := by
  unfold fdEntry
  refine tables_bind (fills_fdName flat) fun _ => ?_
  cases e.stat with
  | none => exact tables_pure _ fun _ tabular => tabular
  | some buffer =>
    refine tables_bind (fills_fdMeta digits buffer) fun _ => ?_
    cases e.lstat with
    | none => exact tables_pure _ fun _ tabular => tabular
    | some link =>
      refine tables_bind (fills_fdAccess _) fun _ => tables_bind (tables_printPinfo compile) fun _ => ?_
      exact tables_pure _ fun _ tabular => tabular

theorem fills_fdEntries (compile : o.Compile w) {entries : List Entry}
    (flat : ∀ e ∈ entries, isNum e.name → ∀ target, e.target = some target → Flat target) : Fills w o (fdEntries w o entries) := by
  induction entries with
  | nil => exact tables_pure _ fun _ tabular => tabular
  | cons e rest ih =>
    have later := ih fun other member => flat other (List.mem_cons_of_mem _ member)
    refine keeps_ite _ (fun digits => ?_) fun _ => later
    refine tables_bind (fills_fdEntry compile digits (flat e List.mem_cons_self digits)) fun more => ?_
    exact keeps_ite _ (fun _ => later) fun _ => tables_pure _ fun _ tabular => tabular

theorem fills_readFd (compile : o.Compile w) {x : Process} (fits : x.Tabular) (digits : isNum x.name = true) :
    Fills w o (readFd w o x) := by
  unfold readFd
  cases found : x.fds with
  | none =>
    have closed : Fills w o (setInfo fun p => {p with
        fd := "NOFD".toList,type := [],inode := -1,name := procPath x "fd" ++ " (Permission denied)".toList}) := by
      refine tables_setInfo _ fun p tabular => ?_
      exact {tabular with
        fd := (by decide : "NOFD".toList.length < FD_SIZE)
        type := Nat.zero_lt_succ _
        name := denied_length x (by decide)
        column := (by decide : Flat "NOFD".toList)
        kind := ⟨Nat.zero_le _,List.not_mem_nil⟩
        file := flat_append.mpr ⟨flat_path digits (by decide),by decide⟩
        node := no_node}
    exact tables_bind closed fun _ => tables_printPinfo compile
  | some dir => exact keeps_ite _ (fun _ => tables_error _) fun _ => fills_fdEntries compile (fits.opened dir found)

theorem scanStat_word {text word : Str} {pid : Int} (scans : scanStat text = some (pid,word)) :
    (-2^31 ≤ pid ∧ pid < 2^31) ∧ Flat word := by
  simp only [scanStat] at scans
  split at scans
  next => cases scans
  next =>
    cases scans
    refine ⟨atoi_node _,fun member => ?_⟩
    have blank := List.mem_takeWhile_imp member
    revert blank
    decide

theorem fills_readStat {x : Process} {text : Str} (fits : x.Tabular) (found : x.statFile = some text) :
    Fills w o (readStat text) := by
  unfold readStat
  cases scans : scanStat text with
  | none => exact tables_error _
  | some read =>
    obtain ⟨pid,word⟩ := read
    obtain ⟨range,plain⟩ := scanStat_word scans
    have few := fits.words text pid word found scans
    have started : Fills w o (setInfo fun p => {p with pid := pid}) :=
      tables_setInfo _ fun _ tabular => {tabular with number := range}
    refine tables_bind started fun _ => tables_within fun short => keeps_ite _ (fun _ => tables_abort _) fun _ => ?_
    have rest : (word.drop 1).length = word.length - 1 := List.length_drop
    have last : (word.drop 1).dropLast.length = word.length - 1 - 1 := by rw [List.length_dropLast,rest]
    have fewer : (word.drop 1).dropLast.length ≤ 40 := by omega
    refine tables_setInfo _ fun _ tabular => ?_
    have flat : Flat (word.drop 1).dropLast := fun member => plain (List.mem_of_mem_drop (List.mem_of_mem_dropLast member))
    exact {tabular with
      procName := (by omega : (word.drop 1).dropLast.length < MAX_NAME_SIZE)
      command := ⟨fewer,flat⟩}

theorem fills_readInfo (compile : o.Compile w) (users : w.Tabular) {x : Process} (fits : x.Tabular) (digits : isNum x.name = true) :
    Fills w o (readInfo w o x) := by
  unfold readInfo
  cases x.stat with
  | none => exact tables_pure _ fun _ tabular => tabular
  | some buffer =>
    refine tables_bind (fills_getUserName users _) fun _ => ?_
    cases found : x.statFile with
    | none => exact tables_pure _ fun _ tabular => tabular
    | some text =>
      refine tables_bind (fills_readStat fits found) fun _ => tables_bind (fills_readLinks compile fits digits) fun _ => ?_
      exact tables_bind (fills_readMem compile fits) fun _ => fills_readFd compile fits digits

theorem fills_listProcesses (compile : o.Compile w) (users : w.Tabular) {processes : List Process}
    (fits : ∀ x ∈ processes, isNum x.name → x.Tabular) : Fills w o (listProcesses w o processes) := by
  induction processes with
  | nil => exact tables_pure _ fun _ tabular => tabular
  | cons x rest ih =>
    have later := ih fun other member => fits other (List.mem_cons_of_mem _ member)
    refine keeps_ite _ (fun digits => ?_) fun _ => later
    exact tables_bind (fills_readInfo compile users (fits x List.mem_cons_self digits) digits) fun _ => later

end Functions

/-- The records that main hands over and what it has printed of them: read as a table, the text
gives the headings and the cells of the records that pass the filters, in order. -/
structure Tabulates (w : World) (o : Options) (s t : Scan) (listed : List Info) (printed : List Str) : Prop where
  handed : t.handed = s.handed ++ listed
  rows : t.rows = s.rows ++ printed
  reads : readTable printed.flatten = headings::(listed.filter (passes w o)).map fun p => (cells p).map trim

theorem listing_reads_back (w : World) (opts : List Opt) (s : Scan) (known : Opt.other ∉ opts)
    (type : ∀ t, (filtersOf opts).typeFilter = some t → t ∈ typeNames) (compile : (filtersOf opts).Compile w)
    (fits : w.Tabular) (first : s.p.Tabular) :
    ∃ listed printed, Tabulates w (filtersOf opts) s ((main w opts 0).run s).state listed printed := by
  have ran := main_lists w known type s
  obtain ⟨processes,entries,_⟩ := fits.listed
  rw [entries] at ran
  have fills := fills_listProcesses compile fits (fits.tabular processes entries)
  obtain ⟨listed,handed,rows,tabular⟩ := fills.ends {s with rows := s.rows ++ [header]} first
  refine ⟨listed,header::(listed.filter (passes w (filtersOf opts))).map row,?_,?_,?_⟩
  · rw [ran]
    exact handed
  · rw [ran]
    exact rows.trans (List.append_cons ..).symm
  · exact readTable_rows fun p member => tabular p (List.mem_of_mem_filter member)

theorem busyShell_tabular : busyShell.Tabular := by
  refine {busyShell_fits with words := ?_, targets := ?_, files := ?_, opened := ?_}
  · rintro _ pid word ⟨⟩ scans
    have read : scanStat "7 (sh) S".toList = some (7,"(sh)".toList) := by decide
    obtain ⟨rfl,rfl⟩ := Prod.mk.inj (Option.some.inj (read.symm.trans scans))
    decide
  · rintro target (⟨⟨⟩⟩ | ⟨⟨⟩⟩ | ⟨⟨⟩⟩)
    decide
  · rintro _ ⟨⟩ line member token found
    obtain rfl := List.mem_singleton.mp member
    have read : pathname "00400000-00401000 r-xp 00000000 08:01 77 /bin/sh\n".toList = some "/bin/sh\n".toList := by
      decide
    obtain rfl := Option.some.inj (read.symm.trans found)
    decide
  · rintro _ ⟨⟩ e member _ target found
    obtain rfl := List.mem_singleton.mp member
    cases found
    decide

theorem busyWorld_tabular : busyWorld.Tabular := by
  refine ⟨⟨?_,[busyShell],rfl,fun x member _ => ?_⟩,?_,?_⟩
  · rintro uid _ ⟨⟩
    decide
  · obtain rfl := List.mem_singleton.mp member
    exact busyShell_fits
  · rintro uid _ ⟨⟩
    decide
  · rintro _ ⟨⟩ x member _
    obtain rfl := List.mem_singleton.mp member
    exact busyShell_tabular

theorem listing_reads_back_shell : ∃ listed printed,
    Tabulates busyWorld noFilters zeroes ((main busyWorld [] 0).run zeroes).state listed printed := by
  refine listing_reads_back busyWorld [] zeroes List.not_mem_nil (fun t found => by cases found) ⟨nofun,nofun⟩ busyWorld_tabular ?_
  exact {
    procName := by decide
    userName := by decide
    fd := by decide
    type := by decide
    name := by decide
    command := by decide
    user := by decide
    column := by decide
    kind := by decide
    file := by decide
    number := by decide
    node := by decide}

end Unixprog.Hw1
