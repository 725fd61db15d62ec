import Unixprog.Library.Avoids
import Unixprog.Hw1.Links

/-! The sizes of the arrays. Where the names that the system reports fit, no copy of the listing overruns
its array, the sprintf calls of getMeta included. -/
namespace Unixprog.Hw1
open CStrings Aborts

def TYPE_SIZE : Nat := 30

/-- Every string of the record ends inside its array. -/
structure Info.Sized (p : Info) : Prop where
  procName : p.procName.length < MAX_NAME_SIZE
  userName : p.userName.length < MAX_NAME_SIZE
  fd : p.fd.length < FD_SIZE
  type : p.type.length < TYPE_SIZE
  name : p.name.length < MAX_NAME_SIZE

def Link.Fits (link : Link) : Prop := ∀ target, link.target = some target → target.length < MAX_NAME_SIZE

/-- What strtok leaves of a line of maps for the pathname. -/
def pathname (line : Str) : Option Str :=
  (strtok [' '] (strtok [' '] (strtok [' '] (strtok [' '] (strtok [' '] (strtok [' '] line).2).2).2).2).2).1

def Entry.Fits (e : Entry) : Prop :=
  e.name.length + 1 < FD_SIZE ∧ ∀ target, e.target = some target → target ≠ [] ∧ target.length < MAX_NAME_SIZE

structure Process.Fits (x : Process) : Prop where
  command : ∀ text pid word, x.statFile = some text → scanStat text = some (pid,word) →
    2 ≤ word.length ∧ word.length < MAX_NAME_SIZE
  cwd : x.cwd.Fits
  root : x.root.Fits
  exe : x.exe.Fits
  maps : ∀ lines, x.maps = some lines → ∀ line ∈ lines, ∀ token, pathname line = some token → token.length < MAX_NAME_SIZE
  fds : ∀ dir, x.fds = some dir → ∀ e ∈ dir.entries, isNum e.name → e.Fits

structure World.Fits (w : World) : Prop where
  users : ∀ uid name, w.getpwuid uid = some name → name.length < MAX_NAME_SIZE
  listed : ∃ processes, w.processes = some processes ∧ ∀ x ∈ processes, isNum x.name → x.Fits

/-! What getMeta formats. -/

theorem decimal_length {n : Int} (low : -2^31 ≤ n) (high : n < 2^31) : (decimal n).length ≤ 11 := by
  have digits {k : Nat} (small : k ≤ 2^31) : (toString k).toList.length ≤ 10 := by
    rw [String.length_toList]
    exact (Nat.length_repr_le_iff (by decide)).mpr (by omega)
  cases n with
  | ofNat k =>
    have few := digits (k := k) (by simp at high; omega)
    exact Nat.le_succ_of_le few
  | negSucc k =>
    have few := digits (k := k+1) (by omega)
    change ("-" ++ toString (k+1)).toList.length ≤ 11
    have sign : "-".toList.length = 1 := by decide
    rw [String.toList_append,List.length_append,sign]
    omega

theorem toInt_decimal (ino : BitVec 64) : (decimal (toInt ino)).length ≤ 11 :=
  decimal_length (BitVec.le_toInt _) (BitVec.toInt_lt)

theorem linkType_length (mode : BitVec 32) (ino : BitVec 64) : (linkType mode (toInt ino)).length < TYPE_SIZE := by
  have numbered (word : Str) (short : word.length ≤ 7) : (word ++ decimal (toInt ino) ++ [']']).length < TYPE_SIZE := by
    have digits := toInt_decimal ino
    rw [List.length_append,List.length_append,List.length_singleton]
    unfold TYPE_SIZE
    omega
  have pipe := numbered "FIFO[".toList (by decide)
  have socket := numbered "socket[".toList (by decide)
  unfold linkType
  split_ifs
  · decide
  · decide
  · decide
  · exact pipe
  · exact socket
  · decide

/-- The path of a link with what getMeta appends to it. -/
theorem denied_length (x : Process) {file : String} (short : file.length ≤ 4) :
    (procPath x file ++ " (Permission denied)".toList).length < MAX_NAME_SIZE := by
  have lengths (root file marker : Str) (six : root.length = 6) (few : file.length ≤ 4) (twenty : marker.length = 20) :
      (root ++ x.name ++ '/'::file ++ marker).length < MAX_NAME_SIZE := by
    have pid := x.short
    simp only [List.length_append,List.length_cons]
    unfold MAX_PID_SIZE at pid
    unfold MAX_NAME_SIZE
    omega
  exact lengths _ _ _ (by decide) (String.length_toList.trans_le short) (by decide)

/-! The functions. None of them ends undefined, and each record handed over is sized. -/

abbrev Sizes (before : Info → Prop) {α : Type} (p : Op α) (after : α → Info → Prop) : Prop :=
  Avoids (· = .undefined) (Hands Info.Sized) (fun s => before s.p) p fun a s => after a s.p

section Rules
variable {w : World} {o : Options} {before : Info → Prop}

theorem sizes_pure {α : Type} {after : α → Info → Prop} (a : α) (holds : ∀ p, before p → after a p) :
    Sizes before (pure a) after := avoids_pure (hands_refl _) a fun s => holds s.p

theorem sizes_bind {α β : Type} {middle : α → Info → Prop} {after : β → Info → Prop} {first : Op α} {next : α → Op β}
    (one : Sizes before first middle) (two : ∀ a, Sizes (middle a) (next a) after) :
    Sizes before (first >>= next) after := avoids_bind (hands_trans _) one two

theorem sizes_complain (complaint : Complaint) : Sizes before (complain complaint) fun _ => before :=
  avoids_change _ (fun _ _ => ⟨[],by simp,by simp⟩) fun _ holds => holds

theorem sizes_exit {α : Type} {after : α → Info → Prop} (code : Nat) : Sizes before (exit code : Op α) after :=
  avoids_abort (hands_refl _) (by simp)

theorem sizes_error {α : Type} {after : α → Info → Prop} (what : String) : Sizes before (error what : Op α) after :=
  sizes_bind (sizes_complain _) fun _ => sizes_exit _

theorem sizes_setInfo (after : Info → Prop) {f : Info → Info} (holds : ∀ p, before p → after (f p)) :
    Sizes before (setInfo f) fun _ => after :=
  avoids_change _ (fun _ _ => ⟨[],by simp,by simp⟩) fun s => holds s.p

theorem sizes_within {β : Type} {after : β → Info → Prop} {size : Nat} {text : Str} {next : Str → Op β}
    (fits : text.length < size) (rest : Sizes before (next text) after) :
    Sizes before (within size text >>= next) after := by
  rw [within,if_pos fits]
  exact rest

theorem sizes_current {β : Type} {after : β → Info → Prop} {next : Scan → Op β}
    (rest : ∀ s, before s.p → Sizes (· = s.p) (next s) after) : Sizes before (current >>= next) after := by
  refine avoids_current fun s holds => (rest s holds).weaken ?_ fun _ _ done => done
  rintro _ rfl
  rfl

theorem sizes_matching {pattern : Option Str} {text : Str} {read : Op Str} (reads : read = pure text) :
    Sizes before (matching w pattern read) fun _ => before := by
  rw [reads]
  cases pattern with
  | none => exact sizes_pure _ fun _ holds => holds
  | some pattern =>
    simp only [matching]
    cases w.regcomp pattern with
    | none => exact sizes_error _
    | some regexec => exact sizes_pure (regexec text) fun _ holds => holds

theorem sizes_printPinfo : Sizes Info.Sized (printPinfo w o) fun _ => Info.Sized := by
  have hands := printPinfo_hands w o
  constructor
  · constructor
    · intro s sized
      exact ⟨[s.p],(hands s).2,by simpa using sized⟩
    · intro s a t sized ran
      have same := (hands s).1
      rw [ran] at same
      exact same ▸ sized
  · intro s why t sized ran
    have named : within MAX_NAME_SIZE s.p.name = (pure s.p.name : Op Str) := by rw [within,if_pos sized.name]
    have shown (p : Info) (fits : within MAX_NAME_SIZE p.name = (pure p.name : Op Str)) :
        Sizes (fun _ => True) (if o.typeFilter.isSome ∧ o.typeFilter ≠ some p.type then pure ()
          else matching w o.commRegex (pure p.procName) >>= fun byComm => if (!byComm) = true then pure ()
          else matching w o.fileRegex (within MAX_NAME_SIZE p.name) >>= fun byFile => if (!byFile) = true then pure ()
          else within MAX_NAME_SIZE p.name >>= fun _ =>
            (change fun t => {t with rows := t.rows ++ [row t.p]} : Op Unit)) fun _ _ => True := by
      have silent : Sizes (fun _ => True) (pure () : Op Unit) fun _ _ => True := sizes_pure () fun _ _ => trivial
      have printed : Sizes (fun _ => True) (change fun t => {t with rows := t.rows ++ [row t.p]} : Op Unit)
          fun _ _ => True := avoids_change _ (fun _ _ => ⟨[],by simp,by simp⟩) fun _ _ => trivial
      have comm : Sizes (fun _ => True) (matching w o.commRegex (pure p.procName)) fun _ _ => True := sizes_matching rfl
      have file : Sizes (fun _ => True) (matching w o.fileRegex (within MAX_NAME_SIZE p.name)) fun _ _ => True :=
        sizes_matching fits
      refine avoids_ite _ (fun _ => silent) fun _ => avoids_bind (hands_trans _) comm fun _ => ?_
      refine avoids_ite _ (fun _ => silent) fun _ => avoids_bind (hands_trans _) file fun _ => ?_
      refine avoids_ite _ (fun _ => silent) fun _ => ?_
      rw [fits]
      exact printed
    exact (shown s.p named).stops {s with handed := s.handed ++ [s.p]} why t trivial ran

theorem sizes_getUserName (fits : w.Fits) (uid : BitVec 32) :
    Sizes Info.Sized (getUserName w uid) fun _ => Info.Sized := by
  unfold getUserName
  cases found : w.getpwuid uid with
  | none => exact sizes_complain _
  | some pwName =>
    have short := fits.users uid pwName found
    exact sizes_within short (sizes_setInfo _ fun p sized => ⟨sized.procName,short,sized.fd,sized.type,sized.name⟩)

theorem sizes_getMeta {link : Link} (fits : link.Fits) {path : Str}
    (short : (path ++ " (Permission denied)".toList).length < MAX_NAME_SIZE) :
    Sizes Info.Sized (getMeta link path) fun _ => Info.Sized := by
  unfold getMeta
  cases link.stat with
  | denied =>
    have unknown : "unknown".toList.length < TYPE_SIZE := by decide
    exact sizes_setInfo _ fun p sized => ⟨sized.procName,sized.userName,sized.fd,unknown,short⟩
  | failed => exact sizes_pure _ fun _ sized => sized
  | ok buffer =>
    have cleared : Sizes Info.Sized (setInfo fun p => {p with name := []}) fun _ => Info.Sized :=
      sizes_setInfo _ fun p sized => ⟨sized.procName,sized.userName,sized.fd,sized.type,Nat.zero_lt_succ _⟩
    refine sizes_bind cleared fun _ => ?_
    cases found : link.target with
    | none => exact sizes_error _
    | some target =>
      have read : (target.take MAX_NAME_SIZE).length < MAX_NAME_SIZE :=
        (List.length_take_le' _ _).trans_lt (fits target found)
      exact sizes_setInfo _ fun p sized => ⟨sized.procName,sized.userName,sized.fd,linkType_length _ _,read⟩

theorem sizes_column {fd : Str} (short : fd.length < FD_SIZE) :
    Sizes Info.Sized (setInfo fun p => {p with fd := fd}) fun _ => Info.Sized :=
  sizes_setInfo _ fun _ sized => ⟨sized.procName,sized.userName,short,sized.type,sized.name⟩

theorem sizes_readLinks {x : Process} (fits : x.Fits) : Sizes Info.Sized (readLinks w o x) fun _ => Info.Sized := by
  unfold readLinks
  refine sizes_bind (sizes_column (by decide)) fun _ => ?_
  refine sizes_bind (sizes_getMeta fits.cwd (denied_length x (by decide))) fun _ => ?_
  refine sizes_bind sizes_printPinfo fun _ => ?_
  refine sizes_bind (sizes_getMeta fits.root (denied_length x (by decide))) fun _ => ?_
  refine sizes_bind (sizes_column (by decide)) fun _ => sizes_bind sizes_printPinfo fun _ => ?_
  refine sizes_bind (sizes_getMeta fits.exe (denied_length x (by decide))) fun _ => ?_
  exact sizes_bind (sizes_column (by decide)) fun _ => sizes_printPinfo

theorem sizes_memName {token : Option Str} (fits : ∀ text, token = some text → text.length < MAX_NAME_SIZE) :
    Sizes Info.Sized (memName token) fun _ => Info.Sized := by
  have named {fd name : Str} (column : fd.length < FD_SIZE) (short : name.length < MAX_NAME_SIZE) :
      Sizes Info.Sized (setInfo fun p => {p with fd := fd,name := name}) fun _ => Info.Sized :=
    sizes_setInfo _ fun _ sized => ⟨sized.procName,sized.userName,column,sized.type,short⟩
  unfold memName
  cases token with
  | none => exact sizes_error _
  | some token =>
    have short := fits token rfl
    have chomped : (chomp token).length < MAX_NAME_SIZE := (chomp_length token).trans_lt short
    refine sizes_within short (avoids_ite _ (fun _ => sizes_error _) fun _ => sizes_current fun s sized => ?_)
    have same {α : Type} {p : Op α} (sizes : Sizes Info.Sized p fun _ => Info.Sized) :
        Sizes (· = s.p) p fun _ => Info.Sized := sizes.weaken (fun _ same => same ▸ sized) fun _ _ done => done
    refine avoids_ite _ (fun _ => ?_) fun _ => same (named (by decide) chomped)
    exact sizes_within sized.name (same (named (by decide) ((cutMarker_length _ _).trans_lt chomped)))

theorem sizes_memLines {lines : List Str} (dict : List Int)
    (fits : ∀ line ∈ lines, ∀ token, pathname line = some token → token.length < MAX_NAME_SIZE) :
    Sizes Info.Sized (memLines w o dict lines) fun _ => Info.Sized := by
  induction lines generalizing dict with
  | nil => exact sizes_pure _ fun _ sized => sized
  | cons line rest ih =>
    have entered (inode : Int → Int) : Sizes Info.Sized (setInfo fun p => {p with inode := inode p.inode})
        fun _ => Info.Sized :=
      sizes_setInfo _ fun _ sized => ⟨sized.procName,sized.userName,sized.fd,sized.type,sized.name⟩
    have named := sizes_memName (fits line List.mem_cons_self)
    have later (dict : List Int) := ih dict fun other member => fits other (List.mem_cons_of_mem _ member)
    refine sizes_bind (avoids_ite _ (fun _ => sizes_pure _ fun _ sized => sized) fun _ => ?_) fun dict => later dict
    refine sizes_bind (entered _) fun _ => sizes_bind named fun _ => sizes_bind sizes_printPinfo fun _ => ?_
    exact sizes_pure _ fun _ sized => sized

theorem sizes_readMem {x : Process} (fits : x.Fits) : Sizes Info.Sized (readMem w o x) fun _ => Info.Sized := by
  have regular : "REG".toList.length < TYPE_SIZE := by decide
  have typed : Sizes Info.Sized (setInfo fun p => {p with type := "REG".toList}) fun _ => Info.Sized :=
    sizes_setInfo _ fun p sized => ⟨sized.procName,sized.userName,sized.fd,regular,sized.name⟩
  refine sizes_bind typed fun _ => sizes_current fun s sized => ?_
  cases found : x.maps with
  | none =>
    refine sizes_pure _ ?_
    rintro _ rfl
    exact sized
  | some lines =>
    refine (sizes_memLines [s.p.inode] (fits.maps lines found)).weaken ?_ fun _ _ done => done
    exact fun _ same => same ▸ sized

/-- The number of a descriptor leaves room for the letter of its mode. -/
def Numbered (p : Info) : Prop := p.Sized ∧ p.fd.length + 1 < FD_SIZE

theorem sizes_fdName {target : Option Str}
    (fits : ∀ text, target = some text → text ≠ [] ∧ text.length < MAX_NAME_SIZE) :
    Sizes Info.Sized (fdName target) fun _ => Info.Sized := by
  have renamed {name : Str} (short : name.length < MAX_NAME_SIZE) :
      Sizes Info.Sized (setInfo fun p => {p with name := name}) fun _ => Info.Sized :=
    sizes_setInfo _ fun _ sized => ⟨sized.procName,sized.userName,sized.fd,sized.type,short⟩
  refine sizes_bind (renamed (Nat.zero_lt_succ _)) fun _ => ?_
  cases target with
  | none => exact sizes_error _
  | some target =>
    obtain ⟨nonempty,short⟩ := fits target rfl
    dsimp only
    rw [List.take_of_length_le short.le]
    refine sizes_within short (avoids_ite _ (fun empty => absurd empty nonempty) fun _ => ?_)
    exact renamed ((chomp_length target).trans_lt short)

theorem fdType_length {mode : BitVec 32} {type : Str} (known : fdType mode = some type) : type.length < TYPE_SIZE := by
  unfold fdType at known
  split_ifs at known
  all_goals (cases known; decide)

theorem sizes_fdMeta {name : Str} (short : name.length + 1 < FD_SIZE) (buffer : Stat) :
    Sizes Info.Sized (fdMeta name buffer) fun _ => Numbered := by
  have fits : name.length < FD_SIZE := (Nat.lt_succ_self _).trans short
  have entered : Sizes Info.Sized (setInfo fun p => {p with inode := toInt buffer.ino,fd := name}) fun _ => Numbered :=
    sizes_setInfo _ fun p sized => ⟨⟨sized.procName,sized.userName,fits,sized.type,sized.name⟩,short⟩
  refine sizes_within fits (sizes_bind entered fun _ => ?_)
  cases known : fdType buffer.mode with
  | some type =>
    have sized := fdType_length known
    exact sizes_setInfo _ fun p ⟨held,room⟩ => ⟨⟨held.procName,held.userName,held.fd,sized,held.name⟩,room⟩
  | none =>
    have unknown : "unknown".toList.length < TYPE_SIZE := by decide
    refine sizes_setInfo _ fun p ⟨held,room⟩ => ⟨⟨held.procName,held.userName,held.fd,unknown,?_⟩,room⟩
    exact Nat.zero_lt_succ _

theorem sizes_fdAccess (mode : BitVec 32) : Sizes Numbered (fdAccess mode) fun _ => Info.Sized := by
  unfold fdAccess
  cases letter : accessSuffix mode with
  | none => exact sizes_error _
  | some suffix =>
    have one : suffix.length = 1 := by
      have among := accessSuffix_letter letter
      simp only [List.mem_cons,List.not_mem_nil,or_false] at among
      rcases among with rfl | rfl | rfl <;> rfl
    refine sizes_current fun s ⟨sized,room⟩ => ?_
    have joined : (s.p.fd ++ suffix).length < FD_SIZE := by
      rw [List.length_append,one]
      exact room
    refine sizes_within joined (sizes_setInfo _ ?_)
    rintro p rfl
    refine ⟨sized.procName,sized.userName,joined,sized.type,?_⟩
    dsimp only
    split
    · exact (cutMarker_length _ _).trans_lt sized.name
    · exact sized.name

theorem sizes_fdEntry {e : Entry} (fits : e.Fits) : Sizes Info.Sized (fdEntry w o e) fun _ => Info.Sized := by
  unfold fdEntry
  refine sizes_bind (sizes_fdName fits.2) fun _ => ?_
  cases e.stat with
  | none => exact sizes_pure _ fun _ sized => sized
  | some buffer =>
    refine sizes_bind (sizes_fdMeta fits.1 buffer) fun _ => ?_
    cases e.lstat with
    | none => exact sizes_pure _ fun _ held => held.1
    | some link =>
      refine sizes_bind (sizes_fdAccess _) fun _ => sizes_bind sizes_printPinfo fun _ => ?_
      exact sizes_pure _ fun _ sized => sized

theorem sizes_fdEntries {entries : List Entry} (fits : ∀ e ∈ entries, isNum e.name → e.Fits) :
    Sizes Info.Sized (fdEntries w o entries) fun _ => Info.Sized := by
  induction entries with
  | nil => exact sizes_pure _ fun _ sized => sized
  | cons e rest ih =>
    have later := ih fun other member => fits other (List.mem_cons_of_mem _ member)
    refine avoids_ite _ (fun digits => ?_) fun _ => later
    refine sizes_bind (sizes_fdEntry (fits e List.mem_cons_self digits)) fun more => ?_
    exact avoids_ite _ (fun _ => later) fun _ => sizes_pure _ fun _ sized => sized

theorem sizes_readFd {x : Process} (fits : x.Fits) : Sizes Info.Sized (readFd w o x) fun _ => Info.Sized := by
  unfold readFd
  cases found : x.fds with
  | none =>
    have path : (procPath x "fd" ++ " (Permission denied)".toList).length < MAX_NAME_SIZE :=
      denied_length x (by decide)
    have column : "NOFD".toList.length < FD_SIZE := by decide
    refine sizes_bind (sizes_setInfo Info.Sized fun p sized => ?_) fun _ => sizes_printPinfo
    exact ⟨sized.procName,sized.userName,column,Nat.zero_lt_succ _,path⟩
  | some dir => exact avoids_ite _ (fun _ => sizes_error _) fun _ => sizes_fdEntries (fits.fds dir found)

theorem sizes_readStat {x : Process} {text : Str} (fits : x.Fits) (found : x.statFile = some text) :
    Sizes Info.Sized (readStat text) fun _ => Info.Sized := by
  unfold readStat
  cases scans : scanStat text with
  | none => exact sizes_error _
  | some read =>
    obtain ⟨pid,word⟩ := read
    obtain ⟨long,short⟩ := fits.command text pid word found scans
    have started : Sizes Info.Sized (setInfo fun p => {p with pid := pid}) fun _ => Info.Sized :=
      sizes_setInfo _ fun _ sized => ⟨sized.procName,sized.userName,sized.fd,sized.type,sized.name⟩
    have rest : (word.drop 1).length = word.length - 1 := List.length_drop
    refine sizes_bind started fun _ => sizes_within short (avoids_ite _ (fun empty => ?_) fun _ => ?_)
    · rw [empty,List.length_nil] at rest
      omega
    · refine sizes_setInfo _ fun _ sized => ⟨?_,sized.userName,sized.fd,sized.type,sized.name⟩
      rw [List.length_dropLast,rest]
      omega

theorem sizes_readInfo (users : w.Fits) {x : Process} (fits : x.Fits) :
    Sizes Info.Sized (readInfo w o x) fun _ => Info.Sized := by
  unfold readInfo
  cases x.stat with
  | none => exact sizes_pure _ fun _ sized => sized
  | some buffer =>
    refine sizes_bind (sizes_getUserName users _) fun _ => ?_
    cases found : x.statFile with
    | none => exact sizes_pure _ fun _ sized => sized
    | some text =>
      refine sizes_bind (sizes_readStat fits found) fun _ => sizes_bind (sizes_readLinks fits) fun _ => ?_
      exact sizes_bind (sizes_readMem fits) fun _ => sizes_readFd fits

theorem sizes_listProcesses (users : w.Fits) {processes : List Process}
    (fits : ∀ x ∈ processes, isNum x.name → x.Fits) :
    Sizes Info.Sized (listProcesses w o processes) fun _ => Info.Sized := by
  induction processes with
  | nil => exact sizes_pure _ fun _ sized => sized
  | cons x rest ih =>
    have later := ih fun other member => fits other (List.mem_cons_of_mem _ member)
    refine avoids_ite _ (fun digits => ?_) fun _ => later
    exact sizes_bind (sizes_readInfo users (fits x List.mem_cons_self digits)) fun _ => later

theorem sizes_parseOptions (o : Options) (opts : List Opt) :
    Sizes Info.Sized (parseOptions o opts) fun _ => Info.Sized := by
  induction opts generalizing o with
  | nil => exact sizes_pure _ fun _ sized => sized
  | cons opt rest ih =>
    cases opt with
    | other => exact sizes_bind (sizes_complain _) fun _ => sizes_exit _
    | _ => exact ih _

theorem sizes_listing (fits : w.Fits) (o : Options) : Sizes Info.Sized (listing w o) fun _ => Info.Sized := by
  have headed : Sizes Info.Sized (change fun s : Scan => {s with rows := s.rows ++ [header]}) fun _ => Info.Sized :=
    avoids_change _ (fun _ _ => ⟨[],by simp,by simp⟩) fun _ sized => sized
  obtain ⟨processes,entries,each⟩ := fits.listed
  have rows := sizes_bind headed fun _ => sizes_listProcesses (o := o) fits each
  rw [listing,entries]
  refine avoids_ite _ (fun _ => ?_) fun _ => rows
  exact sizes_bind (sizes_complain _) fun _ => sizes_bind (sizes_exit _) fun _ => rows

theorem sizes_main (fits : w.Fits) (opts : List Opt) (operands : Nat) :
    Sizes Info.Sized (main w opts operands) fun _ => Info.Sized := by
  have used : Sizes Info.Sized (usage : Op PUnit) fun _ => Info.Sized :=
    sizes_bind (sizes_complain _) fun _ => sizes_exit _
  unfold main
  refine sizes_bind (sizes_parseOptions _ _) fun o => avoids_ite _ (fun _ => ?_) fun _ => sizes_listing fits o
  exact sizes_bind used fun _ => sizes_listing fits o

end Rules

def busyShell : Process :=
  {shell (directory "/a".toList) goneLink with
    maps := some ["00400000-00401000 r-xp 00000000 08:01 77 /bin/sh\n".toList]
    fds := some ⟨true,[⟨"3".toList,some "/a".toList,some ⟨S_IFDIR,2,0⟩,some ⟨S_IRUSR,2,0⟩⟩]⟩}

theorem busyShell_fits : busyShell.Fits := by
  constructor
  case command =>
    rintro _ pid word ⟨⟩ scans
    have read : scanStat "7 (sh) S".toList = some (7,"(sh)".toList) := by decide
    obtain ⟨rfl,rfl⟩ := Prod.mk.inj (Option.some.inj (read.symm.trans scans))
    decide
  case cwd =>
    rintro _ ⟨⟩
    decide
  case root =>
    rintro _ ⟨⟩
  case exe =>
    rintro _ ⟨⟩
  case maps =>
    rintro _ ⟨⟩ line member token found
    obtain rfl := List.mem_singleton.mp member
    have read : pathname "00400000-00401000 r-xp 00000000 08:01 77 /bin/sh\n".toList = some "/bin/sh\n".toList := by
      decide
    obtain rfl := Option.some.inj (read.symm.trans found)
    decide
  case fds =>
    rintro _ ⟨⟩ e member digits
    obtain rfl := List.mem_singleton.mp member
    refine ⟨by decide,?_⟩
    rintro _ ⟨⟩
    decide

def busyWorld : World := ⟨fun _ => some "root".toList,fun _ => none,some [busyShell]⟩

end Unixprog.Hw1
