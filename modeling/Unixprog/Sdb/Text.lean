import Unixprog.Sdb.Deletion
import Unixprog.Sdb.Mappings

/-! What sdb prints, as text, and a reader for the texts of getregs, list and dump. -/
namespace Unixprog.Sdb
open CStrings Words Runs

/-- The character where isprint holds, a dot elsewhere. -/
def glyph (c : Byte) : Char :=
  if 0x20 ≤ c.toNat ∧ c.toNat < 0x7f then Char.ofNat c.toNat else '.'

/-- `%02hhx `. -/
def hexColumn (c : Byte) : List Char := hexText 2 c.toNat ++ [' ']

/-- `%-16llx`. -/
def leftField (value : Word) : List Char := (hexText 0 value.toNat).rightpad 16 ' '

/-- The lines of getregs: each value with what stands before it. -/
def registerCells (regs : Registers) : List (List (List Char × List Char)) := [
  [("RAX ".toList,leftField regs.rax),("  RBX ".toList,leftField regs.rbx),("  RCX ".toList,leftField regs.rcx),
    ("  RDX ".toList,leftField regs.rdx)],
  [("R8  ".toList,leftField regs.r8),("  R9  ".toList,leftField regs.r9),("  R10 ".toList,leftField regs.r10),
    ("  R11 ".toList,leftField regs.r11)],
  [("R12 ".toList,leftField regs.r12),("  R13 ".toList,leftField regs.r13),("  R14 ".toList,leftField regs.r14),
    ("  R15 ".toList,leftField regs.r15)],
  [("RDI ".toList,leftField regs.rdi),("  RSI ".toList,leftField regs.rsi),("  RBP ".toList,leftField regs.rbp),
    ("  RSP ".toList,leftField regs.rsp)],
  [("RIP ".toList,leftField regs.rip),("  FLAGS ".toList,hexText 16 regs.eflags.toNat)]]

def cellLine (cells : List (List Char × List Char)) : List Char := cells.flatMap fun cell => cell.1 ++ cell.2

def listLine (counter : Nat) (addr : Word) : List Char :=
  List.replicate 2 ' ' ++ ((toString counter).toList ++ ':':: ' '::hexText 0 addr.toNat)

def dumpLine (addr : Word) (data : List Byte) : List Char :=
  List.replicate 6 ' ' ++ (hexText 0 addr.toNat ++ ':':: ' '::(data.flatMap hexColumn ++
    ' ':: '|'::(data.map glyph ++ ['|'])))

def Message.text : Message → List Char
  | .debug text => s!"** {text}\n".toList
  | .error text line => s!"Error: {text} at line {line}\n".toList
  | .print text => s!"{text}\n".toList
  | .resetBp addr => "reset bp at 0x".toList ++ hexText 0 addr.toNat ++ ['\n']
  | .breakpointAt => "** breakpoint at @".toList
  | .insnRow insn => "      ".toList ++ hexText 0 insn.address.toNat ++ ": ".toList ++
      (List.range 10).flatMap (fun j => (insn.bytes[j]?).elim "   ".toList hexColumn) ++
      insn.mnemonic.toList.rightpad 10 ' ' ++ insn.opStr.toList.rightpad 10 ' ' ++ ['\n']
  | .listRow counter addr => listLine counter addr ++ ['\n']
  | .dumpRow addr data => dumpLine addr data ++ ['\n']
  | .regTable regs => (registerCells regs).flatMap fun cells => cellLine cells ++ ['\n']
  | .regValue name value => s!"{name} = {value.toNat} (0x".toList ++ hexText 0 value.toNat ++ ")\n".toList
  | message => message.mapText

/-- The text that an operation prints, if it returns. -/
def Session.types (s : Session) (op : Op Unit) : Option (List Char) :=
  (s.prints op).map fun messages => messages.flatMap Message.text

/-! The reader. -/

def textLines (text : List Char) : List (List Char) := (text.splitOn '\n').dropLast

/-- Fields of 16 columns, each behind so many others. -/
def readFields : List Nat → List Char → List Word
  | [],_ => []
  | skip::skips,line => strtoul16 ((line.drop skip).take 16)::readFields skips (line.drop (skip+16))

def readRegs (text : List Char) : List Word :=
  (List.zipWith readFields [[4,6,6,6],[4,6,6,6],[4,6,6,6],[4,6,6,6],[4,8]] (textLines text)).flatten

def readListLine (line : List Char) : Nat × Word :=
  (decDigits 0 (line.dropWhile isSpace),strtoul16 ((line.dropWhile (· ≠ ':')).drop 1))

def readList (text : List Char) : List (Nat × Word) := (textLines text).map readListLine

def readColumns : Nat → List Char → List Byte
  | 0,_ => []
  | n+1,text => BitVec.ofNat 8 (hexDigits 0 (text.take 2))::readColumns n (text.drop 3)

def readDumpLine (line : List Char) : Word × List Byte :=
  (strtoul16 line,readColumns 16 ((line.dropWhile (· ≠ ':')).drop 2))

def readDump (text : List Char) : List (Word × List Byte) := (textLines text).map readDumpLine

/-! Lines. -/

theorem textLines_typed {α : Type} (items : List α) (line : α → List Char) (plain : ∀ a ∈ items, '\n' ∉ line a) :
    textLines (items.flatMap fun a => line a ++ ['\n']) = items.map line := by
  have joined : (items.flatMap fun a => line a ++ ['\n']) = ((items.map line).map (· ++ ['\n'])).flatten := by
    rw [List.flatMap_def,List.map_map]
    rfl
  rw [textLines,joined,splitOn_lines (List.forall_mem_map.mpr plain),List.dropLast_concat]

theorem hexText_line (width value : Nat) : '\n' ∉ hexText width value :=
  fun member => hex_apart (hexText_hex _ _ _ member) (by decide) rfl

theorem dropWhile_colon {before : List Char} (plain : ':' ∉ before) (rest : List Char) :
    (before ++ ':'::rest).dropWhile (· ≠ ':') = ':'::rest := by
  have passes : ∀ c ∈ before, decide (c ≠ ':') = true := fun c member =>
    decide_eq_true fun same => plain (same ▸ member)
  rw [List.dropWhile_append_of_pos passes,List.dropWhile_cons_of_neg (by simp)]

/-! getregs. -/

theorem hexText_short (value : Word) : (hexText 0 value.toNat).length ≤ 16 := by
  simpa [hexText] using toDigits_short (by omega : 0 < 16) value.isLt

/-- The text takes 16 columns, and the value can be read from it. -/
structure Column (text : List Char) (value : Word) : Prop where
  length : text.length = 16
  value : strtoul16 text = value
  line : '\n' ∉ text

theorem field_left (value : Word) : Column (leftField value) value := by
  have short := hexText_short value
  constructor
  case length => rw [leftField,List.length_rightpad,max_eq_left short]
  case value =>
    rw [leftField,List.rightpad]
    cases 16-(hexText 0 value.toNat).length with
    | zero => simpa using strtoul16_hexText 0 value
    | succ more =>
      rw [List.replicate_succ,strtoul16_stop (hexText_some _ _) (hexText_hex _ _) (by decide) (by decide)]
      exact strtoul16_hexText 0 value
  case line =>
    intro member
    obtain digit | blank := List.mem_append.mp member
    · exact hexText_line _ _ digit
    · cases List.eq_of_mem_replicate blank

theorem field_hex (value : Word) : Column (hexText 16 value.toNat) value :=
  ⟨hexText_length (by omega) value.isLt,strtoul16_hexText 16 value,hexText_line _ _⟩

/-- The cells show these values. -/
abbrev Cells (cells : List (List Char × List Char)) (values : List Word) : Prop :=
  List.Forall₂ (fun cell value => '\n' ∉ cell.1 ∧ Column cell.2 value) cells values

theorem readFields_cellLine {cells : List (List Char × List Char)} {values : List Word} (shows : Cells cells values) :
    readFields (cells.map fun cell => cell.1.length) (cellLine cells) = values := by
  induction shows with
  | nil => rfl
  | @cons cell value cells values first _ ih =>
    have field := first.2
    have behind : (cellLine (cell::cells)).drop cell.1.length = cell.2 ++ cellLine cells := by
      rw [cellLine,List.flatMap_cons,List.append_assoc,List.drop_left]
      rfl
    rw [List.map_cons,readFields,← List.drop_drop,behind,List.take_left' field.length,List.drop_left' field.length,
      field.value,ih]

theorem cellLine_line {cells : List (List Char × List Char)} {values : List Word} (shows : Cells cells values) :
    '\n' ∉ cellLine cells := by
  induction shows with
  | nil => exact List.not_mem_nil
  | cons first _ ih =>
    rw [cellLine,List.flatMap_cons,List.mem_append,List.mem_append,not_or,not_or]
    exact ⟨⟨first.1,first.2.line⟩,ih⟩

def registerRows (regs : Registers) : List (List Word) := [[regs.rax,regs.rbx,regs.rcx,regs.rdx],
  [regs.r8,regs.r9,regs.r10,regs.r11],[regs.r12,regs.r13,regs.r14,regs.r15],[regs.rdi,regs.rsi,regs.rbp,regs.rsp],
  [regs.rip,regs.eflags]]

theorem registerCells_show (regs : Registers) : List.Forall₂ Cells (registerCells regs) (registerRows regs) := by
  have four {a b c d : List Char} (plain : '\n' ∉ a ∧ '\n' ∉ b ∧ '\n' ∉ c ∧ '\n' ∉ d) (v w x y : Word) :
      Cells [(a,leftField v),(b,leftField w),(c,leftField x),(d,leftField y)] [v,w,x,y] :=
    .cons ⟨plain.1,field_left v⟩ (.cons ⟨plain.2.1,field_left w⟩ (.cons ⟨plain.2.2.1,field_left x⟩
      (.cons ⟨plain.2.2.2,field_left y⟩ .nil)))
  refine .cons (four (by decide) ..) (.cons (four (by decide) ..) (.cons (four (by decide) ..)
    (.cons (four (by decide) ..) (.cons ?_ .nil))))
  have plain : '\n' ∉ "RIP ".toList ∧ '\n' ∉ "  FLAGS ".toList := by decide
  exact .cons ⟨plain.1,field_left _⟩ (.cons ⟨plain.2,field_hex _⟩ .nil)

theorem cells_read {lines : List (List (List Char × List Char))} {rows : List (List Word)}
    (shows : List.Forall₂ Cells lines rows) : (∀ cells ∈ lines, '\n' ∉ cellLine cells) ∧
      List.zipWith readFields (lines.map (·.map fun cell => cell.1.length)) (lines.map cellLine) = rows := by
  induction shows with
  | nil => exact ⟨List.forall_mem_nil _,rfl⟩
  | cons first _ ih =>
    refine ⟨List.forall_mem_cons.mpr ⟨cellLine_line first,ih.1⟩,?_⟩
    rw [List.map_cons,List.map_cons,List.zipWith_cons_cons,readFields_cellLine first,ih.2]

theorem readRegs_table (regs : Registers) :
    readRegs (Message.text (.regTable regs)) = regs.shown.map Prod.snd := by
  obtain ⟨lines,read⟩ := cells_read (registerCells_show regs)
  have text : Message.text (.regTable regs) = (registerCells regs).flatMap fun cells => cellLine cells ++ ['\n'] := rfl
  have widths : (registerCells regs).map (·.map fun cell => cell.1.length) =
      [[4,6,6,6],[4,6,6,6],[4,6,6,6],[4,6,6,6],[4,8]] := rfl
  rw [widths] at read
  rw [readRegs,text,textLines_typed (registerCells regs) cellLine lines,read]
  rfl

/-! list. -/

theorem space_blanks (count : Nat) : ∀ c ∈ List.replicate count ' ', isSpace c = true := by
  intro c member
  rw [List.eq_of_mem_replicate member]
  rfl

theorem listLine_digits (counter : Nat) (addr : Word) : listLine counter addr =
    List.replicate 2 ' ' ++ (Nat.toDigits 10 counter ++ ':':: ' '::hexText 0 addr.toNat) := by
  rw [listLine,toString_digits]

theorem listLine_line (counter : Nat) (addr : Word) : '\n' ∉ listLine counter addr := by
  intro member
  rw [listLine_digits,List.mem_append,List.mem_append,List.mem_cons,List.mem_cons] at member
  obtain blank | digit | colon | blank | hex := member
  · cases List.eq_of_mem_replicate blank
  · cases toDigits_dec counter _ digit
  · cases colon
  · cases blank
  · exact hexText_line _ _ hex

theorem readListLine_listLine (counter : Nat) (addr : Word) : readListLine (listLine counter addr) = (counter,addr) := by
  have digits := toDigits_dec counter
  have number : decDigits 0 ((listLine counter addr).dropWhile isSpace) = counter := by
    obtain ⟨c,more,text⟩ := List.exists_cons_of_ne_nil (Nat.toDigits_ne_nil (b := 10) (n := counter))
    have first : isSpace c = false := (digit_plain c (digits c (text ▸ List.mem_cons_self))).1
    have kept : (listLine counter addr).dropWhile isSpace = Nat.toDigits 10 counter ++ ':':: ' '::hexText 0 addr.toNat := by
      rw [listLine_digits,List.dropWhile_append_of_pos (space_blanks 2),text,List.cons_append,
        List.dropWhile_cons_of_neg (by simp [first])]
    rw [kept,decDigits_stop rfl]
  have none : ':' ∉ List.replicate 2 ' ' ++ Nat.toDigits 10 counter := by
    rw [List.mem_append,not_or]
    exact ⟨fun blank => absurd (List.eq_of_mem_replicate blank) (by decide),fun digit => absurd (digits _ digit) (by decide)⟩
  have address : strtoul16 (((listLine counter addr).dropWhile (· ≠ ':')).drop 1) = addr := by
    rw [listLine_digits,← List.append_assoc,dropWhile_colon none,List.drop_one,List.tail_cons]
    exact (strtoul16_spaces (space_blanks 1) _).trans (strtoul16_hexText 0 addr)
  rw [readListLine,number,address]

example : listLine 12 0x401000 = "  12: 401000".toList := by decide

theorem readList_rows (addrs : List Word) :
    readList ((rowsOf addrs).flatMap Message.text) = addrs.zipIdx.map Prod.swap := by
  have text : (rowsOf addrs).flatMap Message.text =
      addrs.zipIdx.flatMap fun row => listLine row.2 row.1 ++ ['\n'] := List.flatMap_map _ _ _
  rw [readList,text,textLines_typed addrs.zipIdx (fun row => listLine row.2 row.1) fun row _ => listLine_line row.2 row.1,
    List.map_map]
  exact List.map_congr_left fun row _ => readListLine_listLine row.2 row.1

/-! dump. -/

theorem hexByte_length (c : Byte) : (hexText 2 c.toNat).length = 2 := hexText_length (by omega) c.isLt

theorem readColumns_data (data : List Byte) (rest : List Char) :
    readColumns data.length (data.flatMap hexColumn ++ rest) = data := by
  induction data with
  | nil => rfl
  | cons c data ih =>
    have column : (c::data).flatMap hexColumn ++ rest = hexText 2 c.toNat ++ ' '::(data.flatMap hexColumn ++ rest) := by
      rw [List.flatMap_cons,hexColumn,List.append_assoc,List.append_assoc]
      rfl
    have behind : (hexText 2 c.toNat ++ ' '::(data.flatMap hexColumn ++ rest)).drop 3 = data.flatMap hexColumn ++ rest := by
      rw [show 3 = 2+1 from rfl,← List.drop_drop,List.drop_left' (hexByte_length c)]
      rfl
    rw [column,List.length_cons,readColumns,behind,List.take_left' (hexByte_length c),hexDigits_hexText,ih,
      BitVec.ofNat_toNat,BitVec.setWidth_eq]

theorem glyph_line (c : Byte) : glyph c ≠ '\n' := by
  unfold glyph
  split
  next shown =>
    intro same
    have valid : c.toNat.isValidChar := Or.inl (by omega)
    rw [Char.ofNat,dif_pos valid] at same
    have code : c.toNat = 10 := congrArg Char.toNat same
    omega
  next => decide

theorem dumpLine_line (addr : Word) (data : List Byte) : '\n' ∉ dumpLine addr data := by
  intro member
  simp only [dumpLine,List.mem_append,List.mem_cons,List.mem_flatMap,List.mem_map,List.not_mem_nil,or_false] at member
  obtain blank | hex | colon | blank | ⟨c,_,column⟩ | blank | bar | ⟨c,_,shown⟩ | bar := member
  · cases List.eq_of_mem_replicate blank
  · exact hexText_line _ _ hex
  · cases colon
  · cases blank
  · obtain hex | blank := List.mem_append.mp column
    · exact hexText_line _ _ hex
    · cases List.mem_singleton.mp blank
  · cases blank
  · cases bar
  · exact glyph_line c shown
  · cases bar

theorem readDumpLine_dumpLine (addr : Word) (data : List Byte) (whole : data.length = 16) :
    readDumpLine (dumpLine addr data) = (addr,data) := by
  have address : strtoul16 (dumpLine addr data) = addr :=
    strtoul16_field (space_blanks 6) 0 addr (by decide) (by decide) _
  have none : ':' ∉ List.replicate 6 ' ' ++ hexText 0 addr.toNat := by
    rw [List.mem_append,not_or]
    exact ⟨fun blank => absurd (List.eq_of_mem_replicate blank) (by decide),
      fun hex => absurd (hexText_hex _ _ _ hex) (by decide)⟩
  have columns : readColumns 16 (((dumpLine addr data).dropWhile (· ≠ ':')).drop 2) = data := by
    rw [dumpLine,← List.append_assoc,dropWhile_colon none,← whole]
    exact readColumns_data data _
  rw [readDumpLine,address,columns]

example : dumpLine 0x401000 [0xcc,0x41] = "      401000: cc 41  |.A|".toList := by decide

theorem rowBytes_length (m : Memory) (addr : Word) : (rowBytes m addr).length = 16 := by
  simp [rowBytes]

theorem readDump_rows (m : Memory) (addr : Word) : readDump ((dumpRows m addr).flatMap Message.text) =
    (List.range 5).map fun i => (addr+BitVec.ofNat 64 (16*i),rowBytes m (addr+BitVec.ofNat 64 (16*i))) := by
  let row (i : Nat) : List Char := dumpLine (addr+BitVec.ofNat 64 (16*i)) (rowBytes m (addr+BitVec.ofNat 64 (16*i)))
  have text : (dumpRows m addr).flatMap Message.text = (List.range 5).flatMap fun i => row i ++ ['\n'] :=
    List.flatMap_map _ _ _
  rw [readDump,text,textLines_typed (List.range 5) row fun i _ => dumpLine_line _ _,List.map_map]
  exact List.map_congr_left fun i _ => readDumpLine_dumpLine _ _ (rowBytes_length m _)

theorem rowBytes_half (m : Memory) (addr : Word) {half j : Nat} (low : half < 2) (small : j < 8) :
    (rowBytes m addr)[8*half+j]? = some (byteAt ((fetch m (addr+BitVec.ofNat 64 (8*half))).getD (-1)) j) := by
  obtain rfl | rfl : half = 0 ∨ half = 1 := by omega
  · simp [rowBytes,List.getElem?_append,small]
  · simp [rowBytes,List.getElem?_append,small]

theorem byteAt_ones {j : Nat} (small : j < 8) : byteAt (-1) j = 0xff := by
  interval_cases j <;> rfl

/-- The rows show what is at their addresses, ff for a word that cannot be read. -/
structure Dumped (m : Memory) (addr : Word) (rows : List (Word × List Byte)) : Prop where
  addresses : rows.map Prod.fst = (List.range 5).map fun i => addr+BitVec.ofNat 64 (16*i)
  width : ∀ row ∈ rows, row.2.length = 16
  mapped : ∀ row ∈ rows, ∀ half < 2, ∀ j < 8, Mapped m (row.1+BitVec.ofNat 64 (8*half)) →
    row.2[8*half+j]? = m (row.1+BitVec.ofNat 64 (8*half+j))
  unmapped : ∀ row ∈ rows, ∀ half < 2, ∀ j < 8, ¬ Mapped m (row.1+BitVec.ofNat 64 (8*half)) →
    row.2[8*half+j]? = some 0xff

theorem dumped_rows (m : Memory) (addr : Word) : Dumped m addr (readDump ((dumpRows m addr).flatMap Message.text)) := by
  have rows := readDump_rows m addr
  have shown : ∀ row ∈ readDump ((dumpRows m addr).flatMap Message.text), row.2 = rowBytes m row.1 := by
    rw [rows]
    exact List.forall_mem_map.mpr fun i _ => rfl
  constructor
  case addresses => rw [rows,List.map_map]; rfl
  case width =>
    intro row member
    rw [shown row member,rowBytes_length]
  case mapped =>
    intro row member half low j small present
    obtain ⟨word,found,bytes⟩ := fetch_mapped _ _ present
    rw [shown row member,rowBytes_half m row.1 low small,found,Option.getD_some,← bytes j small,BitVec.add_assoc,
      ← BitVec.ofNat_add]
  case unmapped =>
    intro row member half low j small missing
    rw [shown row member,rowBytes_half m row.1 low small,fetch_unmapped _ _ missing,Option.getD_none,byteAt_ones small]

/-- Registers, breakpoints and code of the child can be read from what sdb prints. -/
structure ReadsBack (s : Session) (c : Child) : Prop where
  registers : ∃ text, s.types getregs = some text ∧ readRegs text = c.regs.shown.map Prod.snd
  breakpoints : ∃ text, s.types list = some text ∧
    readList text = (s.sdb.addrList.toList.map Prod.fst).zipIdx.map Prod.swap
  code : ∀ addr, s.sdb.inText addr = true → ∃ text, s.types (dump addr) = some text ∧ Dumped c.mem addr (readDump text)

theorem types_done {s : Session} {op : Op Unit} {messages : List Message}
    (ran : op.run s = .done () {s with out := s.out ++ messages}) : s.types op = some (messages.flatMap Message.text) := by
  rw [Session.types,Session.prints,ran]
  simp

theorem sessions_read_back (w : World) (s : Session) (reached : Reachable (debugger w) s) (c : Child)
    (live : s.process = .stopped s.sdb.pid c) : ReadsBack s c := by
  have running := stopped_running (reachable_phase reached) live
  constructor
  case registers =>
    refine ⟨Message.text (.regTable c.regs),?_,readRegs_table c.regs⟩
    rw [Session.types,getregs_prints live running]
    simp
  case breakpoints => exact ⟨_,types_done (list_prints s),readList_rows _⟩
  case code =>
    intro addr inside
    exact ⟨_,types_done (dump_live live running addr inside),dumped_rows c.mem addr⟩

theorem sessions_read_back_listed : ∃ c, (sampleSession crashing oneListed).process = .stopped
    (sampleSession crashing oneListed).sdb.pid c ∧ ReadsBack (sampleSession crashing oneListed) c :=
  ⟨_,rfl,sessions_read_back crashing _ (sample_reachable _ _) _ rfl⟩

end Unixprog.Sdb
