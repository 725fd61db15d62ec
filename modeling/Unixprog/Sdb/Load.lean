import Unixprog.Library.Buffers
import Unixprog.Sdb.Session

/-! Loading an ELF file: the reads of `SDB::load` and `SDB::get_code`. A short
fread leaves the rest of its buffer as it was, a failing fseek the position. -/
namespace Unixprog.Sdb
open Words Buffers

structure File where
  bytes : List Byte
  pos : Nat

def fread (fp : File) (count : Nat) : List Byte × File :=
  let got := (fp.bytes.drop fp.pos).take count
  (got,{fp with pos := fp.pos+got.length})

/-- The offset is a signed long: a negative one fails. -/
def fseek (fp : File) (offset : Word) : File :=
  if offset.msb then fp else {fp with pos := offset.toNat}

def fill (old : Record) (got : List Byte) : Record := Vector.ofFn fun i => (got[i.val]?).getD old[i]

def field (record : Record) (start width : Nat) : Nat :=
  (List.range width).foldr (fun i rest => ((record[start+i]?).getD 0).toNat+256*rest) 0

def elfMagic : List Byte := [0x7f#8,0x45#8,0x4c#8,0x46#8]

/-! `Elf64_Ehdr` -/

def eIdent (elf : Record) : List Byte := elf.toList.take 4
def eEntry (elf : Record) : Nat := field elf 24 8
def eShoff (elf : Record) : Word := BitVec.ofNat 64 (field elf 40 8)
def eShnum (elf : Record) : Nat := field elf 60 2
def eShstrndx (elf : Record) : Nat := field elf 62 2

/-! `Elf64_Shdr` -/

def shName (sect : Record) : Nat := field sect 0 4
def shAddr (sect : Record) : Word := BitVec.ofNat 64 (field sect 16 8)
def shOffset (sect : Record) : Word := BitVec.ofNat 64 (field sect 24 8)
def shSize (sect : Record) : Word := BitVec.ofNat 64 (field sect 32 8)

def SDB.inText (d : SDB) (addr : Word) : Bool :=
  shAddr d.sectHeader ≤ addr && addr < shAddr d.sectHeader+shSize d.sectHeader

/-- The buffer of section names: what fread delivered, then whatever the heap holds. -/
def sectName (w : World) (got : List Byte) (i : Nat) : Byte := (got[i]?).getD (w.heap i)

def textName : List Byte := [0x2e#8,0x74#8,0x65#8,0x78#8,0x74#8,0#8]

def isText (names : Nat → Byte) (sect : Record) : Bool := agrees names (shName sect) textName

/-- The loop over the section table. Without a section of that name the last
header read stays. -/
def findText (names : Nat → Byte) : Nat → File → Record → Record
  | 0,_,sect => sect
  | count+1,fp,sect =>
    let header := fread fp 64
    let sect := fill sect header.1
    if isText names sect then sect else findText names count header.2 sect

/-- The indices into the name buffer at which that loop reads. -/
def namesRead (names : Nat → Byte) : Nat → File → Record → List Nat
  | 0,_,_ => []
  | count+1,fp,sect =>
    let header := fread fp 64
    let sect := fill sect header.1
    compared names (shName sect) textName ++ if isText names sect then [] else namesRead names count header.2 sect

/-- A buffer of `size` bytes, into which `got` is read and from which `reads`. Without a
buffer every access is to a null pointer, or close behind it. -/
def World.faults (w : World) (size : Nat) (got : List Byte) (reads : List Nat) : Bool :=
  if w.malloc size then reads.any fun i => decide (size ≤ i) && !w.mapped i
  else !got.isEmpty || !reads.isEmpty

def onSdb (f : SDB → SDB) : Op Unit := modify fun s => {s with sdb := f s.sdb}

@[simp] theorem onSdb_run (f : SDB → SDB) (s : Session) :
    (onSdb f).run s = .done () {s with sdb := f s.sdb} := rfl

def getCode (w : World) (fileName : String) : Op Unit := do
  match ← fopen w (w.file fileName) with
  | none => crash
  | some bytes =>
    if w.faults bytes.length bytes [] then crash
    onSdb fun d => {d with codeSize := bytes.length,codeText := some bytes}
    fclose

def hex (value : Nat) : String := String.ofList (Nat.toDigits 16 value)

/-- `sect_name`, what fread delivered of it, and the stream after that. -/
structure NameBuffer where
  strings : Record
  got : List Byte
  fp : File

def readNames (elf old : Record) (fp : File) : NameBuffer :=
  let shstr := fread (fseek fp (eShoff elf+BitVec.ofNat 64 (eShstrndx elf)*64)) 64
  let strings := fill old shstr.1
  let names := fread (fseek shstr.2 (shOffset strings)) (shSize strings).toNat
  ⟨strings,names.1,names.2⟩

def loadSections (w : World) (fileName : String) (fp : File) : Op Unit := do
  let s ← read
  let elf := s.sdb.elfHeader
  let names := readNames elf s.sdb.sectHeader fp
  let table := fseek names.fp (eShoff elf)
  if w.faults (shSize names.strings).toNat names.got
      (namesRead (sectName w names.got) (eShnum elf) table names.strings) then crash
  let sect := findText (sectName w names.got) (eShnum elf) table names.strings
  onSdb fun d => {d with sectHeader := sect,state := .loaded}
  debug s!"program '{fileName}' loaded. entry point 0x{hex (eEntry elf)}"
  fclose
  getCode w fileName

def load (w : World) (fileName : String) : Op Unit := do
  let s ← read
  if s.sdb.state ≠ .notLoaded then
    debug "state must be NOT LOADED"
  else
    onSdb fun d => {d with programName := fileName}
    match ← fopen w (w.file fileName) with
    | none => debug s!"can not open {fileName}"
    | some bytes =>
      let header := fread ⟨bytes,0⟩ 64
      onSdb fun d => {d with elfHeader := fill d.elfHeader header.1}
      let s ← read
      if eIdent s.sdb.elfHeader ≠ elfMagic then
        -- The stream stays open.
        debug s!"{fileName} is not a valid ELF file."
      else
        loadSections w fileName header.2

/-! What a load leads to. -/

def headerRead (bytes : List Byte) : List Byte := (fread ⟨bytes,0⟩ 64).1

def SDB.textPicked (d : SDB) (w : World) (bytes : List Byte) : Record :=
  let header := fread ⟨bytes,0⟩ 64
  let elf := fill d.elfHeader header.1
  let names := readNames elf d.sectHeader header.2
  findText (sectName w names.got) (eShnum elf) (fseek names.fp (eShoff elf)) names.strings

def SDB.textReads (d : SDB) (w : World) (bytes : List Byte) : List Nat :=
  let header := fread ⟨bytes,0⟩ 64
  let elf := fill d.elfHeader header.1
  let names := readNames elf d.sectHeader header.2
  namesRead (sectName w names.got) (eShnum elf) (fseek names.fp (eShoff elf)) names.strings

/-- A load that goes through reads or writes where nothing is mapped. -/
def SDB.faults (d : SDB) (w : World) (bytes : List Byte) : Bool :=
  let header := fread ⟨bytes,0⟩ 64
  let names := readNames (fill d.elfHeader header.1) d.sectHeader header.2
  w.faults (shSize names.strings).toNat names.got (d.textReads w bytes) || w.faults bytes.length bytes []

def SDB.headed (d : SDB) (fileName : String) (bytes : List Byte) : SDB :=
  {d with programName := fileName,elfHeader := fill d.elfHeader (headerRead bytes)}

/-- The magic in `elf_header` once as much of it is read as the file has. -/
def SDB.accepts (d : SDB) (bytes : List Byte) : Bool := eIdent (fill d.elfHeader (headerRead bytes)) = elfMagic

def SDB.loads (d : SDB) (w : World) (fileName : String) (bytes : List Byte) : SDB := {d.headed fileName bytes with
  sectHeader := d.textPicked w bytes
  state := .loaded
  codeSize := bytes.length
  codeText := some bytes}

def SDB.greeting (d : SDB) (fileName : String) (bytes : List Byte) : String :=
  s!"program '{fileName}' loaded. entry point 0x{hex (eEntry (fill d.elfHeader (headerRead bytes)))}"

section Load
variable {w : World} {fileName : String} {s : Session} {bytes : List Byte}

theorem load_busy (busy : s.sdb.state ≠ .notLoaded) :
    (load w fileName).run s = .done () (s.say (.debug "state must be NOT LOADED")) := by
  simp only [load,bind_run,read_run,andThen_done,if_pos busy,debug_run]

theorem load_missing (idle : s.sdb.state = .notLoaded) (missing : s.opens w (w.file fileName) = none) :
    (load w fileName).run s = .done () ({s with sdb := {s.sdb with programName := fileName}}.say
      (.debug s!"can not open {fileName}")) := by
  simp only [load,bind_run,read_run,andThen_done,idle,ne_eq,not_true_eq_false,if_false,onSdb_run]
  rw [fopen_none (by exact missing)]
  rfl

theorem load_refused (idle : s.sdb.state = .notLoaded) (found : s.opens w (w.file fileName) = some bytes)
    (bad : s.sdb.accepts bytes = false) :
    (load w fileName).run s = .done () ({s with sdb := s.sdb.headed fileName bytes,opened := s.opened+1}.say
      (.debug s!"{fileName} is not a valid ELF file.")) := by
  have bad : ¬ eIdent (fill s.sdb.elfHeader (fread ⟨bytes,0⟩ 64).1) = elfMagic := of_decide_eq_false bad
  simp only [load,bind_run,read_run,andThen_done,idle,ne_eq,not_true_eq_false,if_false,onSdb_run]
  rw [fopen_some (by exact found)]
  simp only [andThen_done,bind_run,onSdb_run,read_run,bad,not_false_eq_true,if_true,debug_run,SDB.headed,headerRead,idle]

theorem getCode_run (room : s.opened < w.streams) (found : w.file fileName = some bytes) :
    (getCode w fileName).run s = if w.faults bytes.length bytes [] then .exited 139 {s with opened := s.opened+1}
      else .done () {s with sdb := {s.sdb with codeSize := bytes.length,codeText := some bytes}} := by
  simp only [getCode,bind_run,fopen_some (opens_some.mpr ⟨room,found⟩),andThen_done]
  split
  · rfl
  · rfl

theorem load_accepted (idle : s.sdb.state = .notLoaded) (found : s.opens w (w.file fileName) = some bytes)
    (magic : s.sdb.accepts bytes = true) :
    if s.sdb.faults w bytes then ∃ t, (load w fileName).run s = .exited 139 t ∧ t.opened = s.opened+1 ∧
      t.tracee = s.tracee
    else (load w fileName).run s = .done () ({s with sdb := s.sdb.loads w fileName bytes}.say
      (.debug (s.sdb.greeting fileName bytes))) := by
  have magic : eIdent (fill s.sdb.elfHeader (fread ⟨bytes,0⟩ 64).1) = elfMagic := of_decide_eq_true magic
  simp only [load,bind_run,read_run,andThen_done,idle,ne_eq,not_true_eq_false,if_false,onSdb_run]
  rw [fopen_some (by exact found)]
  simp only [andThen_done,bind_run,onSdb_run,read_run,magic,not_true_eq_false,if_false,loadSections,SDB.faults,
    SDB.textReads,SDB.loads,SDB.textPicked,SDB.headed,SDB.greeting,headerRead]
  generalize readNames _ _ _ = names
  generalize w.faults (shSize names.strings).toNat names.got _ = reads
  cases reads with
  | true => exact ⟨_,rfl,rfl,tracee_congr (by dsimp only) (by dsimp only)⟩
  | false =>
    simp only [Bool.false_or,Bool.false_eq_true,if_false,bind_run,andThen_done,onSdb_run,debug_run,fclose_run]
    rw [getCode_run (by exact (opens_some.mp found).1) (opens_some.mp found).2]
    split
    · exact ⟨_,rfl,rfl,tracee_congr (by simp only [say_process]) (by simp only [say_sdb])⟩
    · simp only [Session.say,Nat.add_sub_cancel]

end Load

/-- A load prints that it is busy, refuses, and then only the name, the ELF header and
the streams may have changed, goes through or faults. -/
inductive Loading (w : World) (fileName : String) (s : Session) (o : Outcome Unit) : Prop
  | busy (busy : s.sdb.state ≠ .notLoaded) (ran : o = .done () (s.say (.debug "state must be NOT LOADED")))
  | missing (idle : s.sdb.state = .notLoaded) (missing : s.opens w (w.file fileName) = none)
      (ran : o = .done () ({s with sdb := {s.sdb with programName := fileName}}.say (.debug s!"can not open {fileName}")))
  | refused (bytes : List Byte) (idle : s.sdb.state = .notLoaded) (found : s.opens w (w.file fileName) = some bytes)
      (bad : s.sdb.accepts bytes = false)
      (ran : o = .done () ({s with sdb := s.sdb.headed fileName bytes,opened := s.opened+1}.say
        (.debug s!"{fileName} is not a valid ELF file.")))
  | loaded (bytes : List Byte) (idle : s.sdb.state = .notLoaded)
      (found : s.opens w (w.file fileName) = some bytes) (magic : s.sdb.accepts bytes = true)
      (sound : s.sdb.faults w bytes = false)
      (ran : o = .done () ({s with sdb := s.sdb.loads w fileName bytes}.say (.debug (s.sdb.greeting fileName bytes))))
  | faults (bytes : List Byte) (t : Session) (idle : s.sdb.state = .notLoaded)
      (found : s.opens w (w.file fileName) = some bytes) (magic : s.sdb.accepts bytes = true)
      (faults : s.sdb.faults w bytes = true) (opened : t.opened = s.opened+1) (child : t.tracee = s.tracee)
      (ran : o = .exited 139 t)

theorem load_loading (w : World) (fileName : String) (s : Session) : Loading w fileName s ((load w fileName).run s) := by
  by_cases idle : s.sdb.state = .notLoaded
  · cases found : s.opens w (w.file fileName) with
    | none => exact .missing idle found (load_missing idle found)
    | some bytes =>
      cases magic : s.sdb.accepts bytes with
      | false => exact .refused bytes idle found magic (load_refused idle found magic)
      | true =>
        have accepted := load_accepted idle found magic
        cases faults : s.sdb.faults w bytes with
        | true =>
          simp only [faults,if_true] at accepted
          obtain ⟨t,ran,opened,child⟩ := accepted
          exact .faults bytes t idle found magic faults opened child ran
        | false =>
          simp only [faults,Bool.false_eq_true,if_false] at accepted
          exact .loaded bytes idle found magic faults accepted
  · exact .busy idle (load_busy idle)

theorem load_cases (w : World) (fileName : String) (s t : Session)
    (ok : (load w fileName).run s = .done () t) :
    t.process = s.process ∧ t.clock = s.clock ∧ t.statuses = s.statuses ∧ t.sdb.addrList = s.sdb.addrList ∧
      t.sdb.preAddr = s.sdb.preAddr ∧ t.sdb.preVal = s.sdb.preVal ∧ t.sdb.pid = s.sdb.pid ∧
      (s.sdb.state ≠ .notLoaded ∧ t.sdb = s.sdb ∨
        s.sdb.state = .notLoaded ∧ (t.sdb.state = .notLoaded ∨ t.sdb.state = .loaded)) := by
  cases load_loading w fileName s with
  | busy busy ran =>
    simp only [ran,Outcome.done.injEq,true_and] at ok
    subst t
    exact ⟨rfl,rfl,rfl,rfl,rfl,rfl,rfl,.inl ⟨busy,rfl⟩⟩
  | missing idle missing ran =>
    simp only [ran,Outcome.done.injEq,true_and] at ok
    subst t
    exact ⟨rfl,rfl,rfl,rfl,rfl,rfl,rfl,.inr ⟨idle,.inl idle⟩⟩
  | refused bytes idle found bad ran =>
    simp only [ran,Outcome.done.injEq,true_and] at ok
    subst t
    simp [SDB.headed,idle]
  | loaded bytes idle found magic sound ran =>
    simp only [ran,Outcome.done.injEq,true_and] at ok
    subst t
    simp [SDB.loads,SDB.headed,idle]
  | faults bytes u idle found magic faults opened child ran => simp [ran] at ok

end Unixprog.Sdb
