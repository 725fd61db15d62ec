import Unixprog.Library.Sweeps
import Unixprog.Sdb.Sections
import Unixprog.Sdb.Returns

/-! The rows that disasm prints, beside the instructions of `.text`. -/
namespace Unixprog.Sdb
open Words Buffers Sweeps Runs

/-- Capstone: a sweep with a decoder of x86-64 instructions. -/
structure Capstone (w : World) (D : Decoder Byte Insn Word) : Prop where
  opens : w.csOpen = true
  code : ∀ insn, D.code insn = insn.bytes
  next : ∀ addr insn, D.next addr insn = addr+BitVec.ofNat 64 insn.bytes.length
  address : ∀ bytes addr insn, D.decode bytes addr = some insn → insn.address = addr
  short : ∀ bytes addr insn, D.decode bytes addr = some insn → insn.bytes.length ≤ 15
  sweeps : ∀ bytes addr count, 0 < count → w.csDisasm bytes addr count = D.sweep count bytes addr

def SDB.image (d : SDB) : List Byte := d.codeText.getD []

def SDB.textEnd (d : SDB) : Nat := (shAddr d.sectHeader).toNat+(shSize d.sectHeader).toNat

/-- `.text` lies inside the file, which has no bytes from 2^63 on. -/
def SDB.textInFile (d : SDB) : Prop :=
  (shOffset d.sectHeader).toNat+(shSize d.sectHeader).toNat ≤ d.image.length ∧
    (shOffset d.sectHeader).toNat+(shSize d.sectHeader).toNat < 2^63

def SDB.textFrom (d : SDB) (addr : Word) : List Byte :=
  (d.image.drop ((shOffset d.sectHeader).toNat+(addr.toNat-(shAddr d.sectHeader).toNat))).take (d.textEnd-addr.toNat)

/-- What a row shows of its instruction: ten columns of bytes. -/
def Insn.columns (insn : Insn) : Insn := {insn with bytes := (List.range 10).filterMap fun j => insn.bytes[j]?}

def shown : Message → Option Insn
  | .insnRow insn => some insn.columns
  | _ => none

structure ShowsText (w : World) (D : Decoder Byte Insn Word) (s : Session) (addr : Word) : Prop where
  rows : ∃ t, (disasm w addr 10).run s = .done () t ∧
    t.out.filterMap shown = s.out.filterMap shown ++ (D.instructions (s.sdb.textFrom addr) addr).take 10
  inside : (shOffset s.sdb.sectHeader+addr-shAddr s.sdb.sectHeader).toNat+s.sdb.codeSize ≤ s.sdb.image.length

/-! The image of a loaded file. -/

theorem load_image (w : World) (fileName : String) (s t : Session)
    (ok : (load w fileName).run s = .done () t) :
    t.sdb.codeText = s.sdb.codeText ∧ t.sdb.codeSize = s.sdb.codeSize ∧ t.sdb.state = s.sdb.state ∨
      ∃ bytes, t.sdb.codeText = some bytes ∧ t.sdb.codeSize = bytes.length := by
  cases load_loading w fileName s with
  | busy busy ran =>
    simp only [ran,Outcome.done.injEq,true_and] at ok
    subst t
    exact .inl ⟨rfl,rfl,rfl⟩
  | missing idle missing ran =>
    simp only [ran,Outcome.done.injEq,true_and] at ok
    subst t
    exact .inl ⟨rfl,rfl,rfl⟩
  | refused bytes idle found bad ran =>
    simp only [ran,Outcome.done.injEq,true_and] at ok
    subst t
    left
    simp only [say_sdb,SDB.headed,and_self]
  | loaded bytes idle found magic sound ran =>
    simp only [ran,Outcome.done.injEq,true_and] at ok
    subst t
    right
    simp only [say_sdb,SDB.loads,Option.some.injEq,exists_eq_left']
  | faults bytes u idle found magic faults opened child ran => simp [ran] at ok

theorem Settles.image {w : World} {d e : SDB} {report : Report} {p : Process} {heard : List Report}
    (settles : Settles w d report e p heard) : e.codeText = d.codeText ∧ e.codeSize = d.codeSize := by
  induction settles with
  | nested d e c mapped before here fuel clock report p heard resumed rest ih => exact ih
  | _ => exact ⟨rfl,rfl⟩

theorem Effect.image {w : World} {clock : Nat} {d e : SDB} {c : Child} {command : Command} {p : Process}
    {heard : List Report} (effect : Effect w clock d c command e p heard) :
    e.codeText = d.codeText ∧ e.codeSize = d.codeSize := by
  cases effect with
  | resume command request lets mapped time report told e p heard settles => exact settles.image
  | _ => exact ⟨rfl,rfl⟩

def SDB.whole (d : SDB) : Prop := d.state ≠ .notLoaded → ∃ bytes, d.codeText = some bytes ∧ d.codeSize = bytes.length

theorem moved_whole (w : World) (s t : Session) (command : Command) (whole : s.sdb.whole)
    (other : ∀ fileName, command ≠ .load fileName) (moved : Moved w s command t) : t.sdb.whole := by
  cases moved with
  | same command unchanged => exact unchanged.sdb ▸ whole
  | loads fileName loads => exact absurd rfl (other fileName)
  | starts pid c m started =>
    rw [started.sdb]
    exact fun _ => whole (by simp [started.loaded])
  | affects command c running live affects =>
    obtain ⟨heard,effect,_⟩ := affects
    intro _
    rw [effect.image.1,effect.image.2]
    exact whole (by simp [running])

theorem step_whole (w : World) (fuel : Nat) (command : Command) (s t : Session) (phase : Phase s)
    (whole : s.sdb.whole) (ok : (command.perform w fuel).run s = .done () t) : t.sdb.whole := by
  by_cases loads : ∃ fileName, command = .load fileName
  · obtain ⟨fileName,rfl⟩ := loads
    obtain ⟨text,size,state⟩ | fresh := load_image w fileName s t ok
    · unfold SDB.whole
      rw [text,size,state]
      exact whole
    · exact fun _ => fresh
  · have other (fileName : String) : command ≠ .load fileName := fun same => loads ⟨fileName,same⟩
    obtain ⟨_,moved⟩ | ⟨_,u,_,first,second⟩ := step_moved w fuel command s t phase ok
    · exact moved_whole w s t command whole other moved
    · have middle := moved_whole w s u .start whole (by simp) first
      exact moved_whole w u t .cont middle (by simp) second

theorem reachable_whole {w : World} {s : Session} (reached : Reachable (debugger w) s) : s.sdb.whole := by
  induction reached with
  | start first =>
    obtain ⟨elf,sect,name,rfl⟩ := first
    exact fun loaded => absurd rfl loaded
  | next before moved _ ih => exact step_whole w _ _ _ _ (reachable_phase before) ih moved

/-! The rows. -/

theorem filterMap_range {α : Type} (list : List α) (count : Nat) :
    ((List.range count).filterMap fun j => list[j]?) = list.take count := by
  induction count with
  | zero => simp
  | succ count ih =>
    rw [List.range_succ,List.filterMap_append,ih,List.take_add_one]
    cases found : list[count]? <;> simp [found]

theorem Insn.columns_eq (insn : Insn) : insn.columns = insn ↔ insn.bytes.length ≤ 10 := by
  simp only [Insn.columns,filterMap_range,← List.take_eq_self_iff]
  constructor
  · intro same
    exact congrArg Insn.bytes same
  · intro same
    rw [same]

def SDB.begun (d : SDB) (insns : List Insn) : List Insn :=
  insns.takeWhile fun insn => decide (insn.address < shAddr d.sectHeader+shSize d.sectHeader)

theorem insnRows_shown (d : SDB) (insns : List Insn) :
    (insnRows d insns).filterMap shown = (d.begun insns).map Insn.columns := by
  induction insns with
  | nil => rfl
  | cons insn insns ih =>
    simp only [insnRows,SDB.begun,List.takeWhile_cons]
    split
    next past =>
      rw [if_neg (by simpa using past)]
      rfl
    next ahead =>
      rw [if_pos (by simpa using ahead),List.filterMap_cons_some (rfl : shown (.insnRow insn) = some insn.columns),ih]
      rfl

theorem disasm_shown {w : World} {D : Decoder Byte Insn Word} (capstone : Capstone w D) (s : Session)
    (running : s.sdb.state = .running) (addr : Word) (inside : s.sdb.inText addr = true) :
    ∃ t, (disasm w addr 10).run s = .done () t ∧ t.out.filterMap shown = s.out.filterMap shown ++
      (s.sdb.begun (D.sweep 10 (codeBytes w s.sdb (shOffset s.sdb.sectHeader+addr-shAddr s.sdb.sectHeader)) addr)).map
        Insn.columns := by
  simp only [disasm,bind_run,read_run,andThen_done,running,ne_eq,not_true_eq_false,if_false,inside,Bool.not_true,
    Bool.false_eq_true,capstone.opens,capstone.sweeps _ _ 10 (by omega)]
  generalize D.sweep 10 _ addr = insns
  split
  next =>
    simp only [debug_run,Outcome.done.injEq,true_and,exists_eq_left',Session.say,List.filterMap_append,SDB.begun,
      List.takeWhile_nil,List.map_nil,List.filterMap_cons,List.filterMap_nil,shown]
  next insns _ =>
    refine ⟨_,forM_say id _ s,?_⟩
    rw [List.map_id,List.filterMap_append,insnRows_shown]

/-- The rows that are printed are the instructions inside the next `size` bytes
exactly if none of them is too long for its columns or for `.text`. -/
theorem begun_exact {w : World} {D : Decoder Byte Insn Word} (capstone : Capstone w D) (d : SDB)
    (noWrap : d.textEnd < 2^64) (count size : Nat) (bytes : List Byte) (addr : Word)
    (ahead : addr.toNat+size = d.textEnd) :
    (d.begun (D.sweep count bytes addr)).map Insn.columns = D.within size (D.sweep count bytes addr) ↔
      ∀ insn ∈ d.begun (D.sweep count bytes addr), insn.bytes.length ≤ 10 ∧
        insn.address.toNat+insn.bytes.length ≤ d.textEnd := by
  induction count generalizing size bytes addr with
  | zero => simp [Decoder.sweep,SDB.begun,Decoder.within]
  | succ count ih =>
    cases found : D.decode bytes addr with
    | none => simp [sweep_none _ found,SDB.begun,Decoder.within]
    | some insn =>
      have here := capstone.address _ _ _ found
      have positive := code_positive found
      rw [capstone.code] at positive
      rw [sweep_some _ found,Decoder.within,capstone.code,capstone.next]
      have starts : insn.address < shAddr d.sectHeader+shSize d.sectHeader ↔ 0 < size := by
        rw [here,BitVec.lt_def,BitVec.toNat_add,Nat.mod_eq_of_lt (by exact noWrap)]
        unfold SDB.textEnd at ahead
        omega
      obtain rfl | some := Nat.eq_zero_or_pos size
      · have past : d.begun (insn::D.sweep count (bytes.drop insn.bytes.length)
            (addr+BitVec.ofNat 64 insn.bytes.length)) = [] := by
          have not : ¬ insn.address < shAddr d.sectHeader+shSize d.sectHeader := by
            rw [starts]
            omega
          rw [SDB.begun,List.takeWhile_cons_of_neg (by rwa [decide_eq_true_eq])]
        rw [past,if_neg (by omega)]
        simp
      · have listed : d.begun (insn::D.sweep count (bytes.drop insn.bytes.length)
            (addr+BitVec.ofNat 64 insn.bytes.length)) = insn::d.begun (D.sweep count (bytes.drop insn.bytes.length)
            (addr+BitVec.ofNat 64 insn.bytes.length)) := by
          rw [SDB.begun,List.takeWhile_cons_of_pos (by rwa [decide_eq_true_eq,starts])]
          rfl
        rw [listed,List.map_cons,List.forall_mem_cons,here]
        split
        next fits =>
          have after : (addr+BitVec.ofNat 64 insn.bytes.length).toNat = addr.toNat+insn.bytes.length := by
            rw [BitVec.toNat_add,BitVec.toNat_ofNat]
            omega
          have rest := ih (size-insn.bytes.length) (bytes.drop insn.bytes.length) _ (by rw [after]; omega)
          rw [List.cons_eq_cons,Insn.columns_eq,rest]
          exact and_congr_left fun _ => (and_iff_left (by omega)).symm
        next long =>
          constructor
          · intro same
            cases same
          · rintro ⟨⟨_,ends⟩,_⟩
            omega

section Range
variable {d : SDB} {addr : Word}

theorem inText_bounds (inside : d.inText addr = true) :
    (shAddr d.sectHeader).toNat ≤ addr.toNat ∧ addr.toNat < d.textEnd ∧ d.textEnd < 2^64 := by
  have size := (shSize d.sectHeader).isLt
  rw [inText_iff] at inside
  unfold SDB.textEnd
  omega

theorem offset_word (inFile : d.textInFile) (inside : d.inText addr = true) :
    (shOffset d.sectHeader+addr-shAddr d.sectHeader).toNat =
      (shOffset d.sectHeader).toNat+(addr.toNat-(shAddr d.sectHeader).toNat) := by
  obtain ⟨low,high,_⟩ := inText_bounds inside
  have small := inFile.2
  unfold SDB.textEnd at high
  rw [BitVec.toNat_sub,BitVec.toNat_add]
  omega

theorem textFrom_length (inFile : d.textInFile) (inside : d.inText addr = true) :
    (d.textFrom addr).length = d.textEnd-addr.toNat := by
  obtain ⟨low,high,_⟩ := inText_bounds inside
  have fits := inFile.1
  unfold SDB.textFrom SDB.textEnd at *
  rw [List.length_take,List.length_drop]
  omega

theorem textFrom_front (w : World) (inFile : d.textInFile) (inside : d.inText addr = true)
    (size : d.codeSize = d.image.length) :
    d.textFrom addr <+: codeBytes w d (shOffset d.sectHeader+addr-shAddr d.sectHeader) := by
  obtain ⟨low,high,_⟩ := inText_bounds inside
  have fits := inFile.1
  have bytes : codeBytes w d (shOffset d.sectHeader+addr-shAddr d.sectHeader) =
      window d.image w.heap (shOffset d.sectHeader+addr-shAddr d.sectHeader).toNat d.codeSize := rfl
  unfold SDB.textEnd at high
  rw [bytes,offset_word inFile inside,SDB.textFrom,← window_take d.image w.heap _ d.codeSize]
  · exact List.take_prefix _ _
  · unfold SDB.textEnd
    omega
  · unfold SDB.textEnd
    omega

theorem codeBytes_image (w : World) (offset : Word) (size : d.codeSize = d.image.length)
    (fits : offset.toNat+d.codeSize ≤ d.image.length) : codeBytes w d offset = d.image := by
  have bytes : codeBytes w d offset = window d.image w.heap offset.toNat d.codeSize := rfl
  have zero : offset.toNat = 0 := by omega
  rw [bytes,window_inside _ _ _ _ fits,zero,List.drop_zero,size,List.take_length]

end Range

theorem reachable_size {w : World} {s : Session} (reached : Reachable (debugger w) s) (running : s.sdb.state = .running) :
    s.sdb.codeSize = s.sdb.image.length := by
  obtain ⟨bytes,text,size⟩ := reachable_whole reached (by simp [running])
  rw [size,SDB.image,text,Option.getD_some]

def jgAdd (bytes : List Byte) (addr : Word) : Option Insn :=
  match bytes with
  | 0x7f#8::rel::_ => some ⟨addr,[0x7f#8,rel],"jg","0x"++hex (addr+2+rel.signExtend 64).toNat⟩
  | 0x00#8::0x00#8::_ => some ⟨addr,[0x00#8,0x00#8],"add","byte ptr [rax], al"⟩
  | _ => none

theorem jgAdd_shape {bytes : List Byte} {addr : Word} {insn : Insn} (found : jgAdd bytes addr = some insn) :
    insn.address = addr ∧ insn.bytes.length = 2 ∧ insn.bytes <+: bytes ∧
      ∀ more, insn.bytes <+: more → jgAdd more addr = some insn := by
  unfold jgAdd at found
  split at found
  next rel rest =>
    cases found
    refine ⟨rfl,rfl,⟨rest,rfl⟩,?_⟩
    rintro _ ⟨tail,rfl⟩
    rfl
  next rest =>
    cases found
    refine ⟨rfl,rfl,⟨rest,rfl⟩,?_⟩
    rintro _ ⟨tail,rfl⟩
    rfl
  next => cases found

def jgAddDecoder : Decoder Byte Insn Word where
  decode := jgAdd
  code := Insn.bytes
  next addr insn := addr+BitVec.ofNat 64 insn.bytes.length
  consumes _ _ _ found := (jgAdd_shape found).2.2.1
  nonempty _ _ _ found := List.ne_nil_of_length_pos (by rw [(jgAdd_shape found).2.1]; omega)
  told _ more _ _ found part := (jgAdd_shape found).2.2.2 more part

def jgAddWorld (file : List Byte) : World :=
  {elfWorld file with csDisasm := fun bytes addr count => jgAddDecoder.sweep count bytes addr}

theorem jgAdd_capstone (file : List Byte) : Capstone (jgAddWorld file) jgAddDecoder where
  opens := rfl
  code _ := rfl
  next _ _ := rfl
  address _ _ _ found := (jgAdd_shape found).1
  short _ _ _ found := by rw [(jgAdd_shape found).2.1]; omega
  sweeps _ _ _ _ := rfl

def jumpFile : List Byte := elfFile 2 2 199 2 [0x7f#8,0x00#8]

def jumpSession : Session := sampleSession (jgAddWorld jumpFile) [.load "a.out",.start]

/-- The 201 bytes given to Capstone begin 199 bytes into the image of 201. -/
theorem disasm_past_image :
    Capstone (jgAddWorld jumpFile) jgAddDecoder ∧ Reachable (debugger (jgAddWorld jumpFile)) jumpSession ∧
      jumpSession.sdb.state = .running ∧ jumpSession.sdb.textInFile ∧ jumpSession.sdb.inText 0x1000 = true ∧
      ¬ ShowsText (jgAddWorld jumpFile) jgAddDecoder jumpSession 0x1000 := by
  refine ⟨jgAdd_capstone _,sample_reachable _ _,rfl,?_,by decide +kernel,?_⟩
  · unfold SDB.textInFile
    decide +kernel
  · intro shows
    exact absurd shows.inside (by decide +kernel)

/-- disasm shows `.text`, giving Capstone bytes of the image only, exactly if it begins
with the image and no instruction is too long for the columns or the section. -/
theorem shows_text_iff (w : World) (D : Decoder Byte Insn Word) (capstone : Capstone w D) (s : Session)
    (reached : Reachable (debugger w) s) (running : s.sdb.state = .running) (inFile : s.sdb.textInFile) (addr : Word)
    (inside : s.sdb.inText addr = true) :
    ShowsText w D s addr ↔ shOffset s.sdb.sectHeader = 0 ∧ addr = shAddr s.sdb.sectHeader ∧
      ∀ insn ∈ s.sdb.begun (D.sweep 10 s.sdb.image addr), insn.bytes.length ≤ 10 ∧
        insn.address.toNat+insn.bytes.length ≤ s.sdb.textEnd := by
  obtain ⟨low,high,noWrap⟩ := inText_bounds inside
  have size := reachable_size reached running
  have handed : (shOffset s.sdb.sectHeader+addr-shAddr s.sdb.sectHeader).toNat+s.sdb.codeSize ≤ s.sdb.image.length ↔
      shOffset s.sdb.sectHeader = 0 ∧ addr = shAddr s.sdb.sectHeader := by
    rw [offset_word inFile inside,size,← BitVec.toNat_inj,← BitVec.toNat_inj]
    simp only [BitVec.toNat_zero,BitVec.ofNat_eq_ofNat]
    omega
  obtain ⟨t,ran,rows⟩ := disasm_shown capstone s running addr inside
  have exact := begun_exact capstone s.sdb noWrap 10 (s.sdb.textEnd-addr.toNat)
    (codeBytes w s.sdb (shOffset s.sdb.sectHeader+addr-shAddr s.sdb.sectHeader)) addr (by omega)
  have text := sweep_front 10 _ _ addr (textFrom_front w inFile inside size) (D := D)
  rw [textFrom_length inFile inside,← instructions_take] at text
  rw [← text] at exact
  constructor
  · rintro ⟨⟨u,done,same⟩,range⟩
    rw [ran] at done
    cases done
    rw [rows] at same
    have whole := exact.mp (List.append_cancel_left same)
    rw [codeBytes_image w _ size range] at whole
    exact ⟨(handed.mp range).1,(handed.mp range).2,whole⟩
  · rintro ⟨zero,first,whole⟩
    have range := handed.mpr ⟨zero,first⟩
    rw [codeBytes_image w _ size range] at exact rows
    refine ⟨⟨t,ran,?_⟩,range⟩
    rw [rows,exact.mpr whole]

def magicFile : List Byte := elfFile 6 2 0 2 []

def magicSession : Session := sampleSession (jgAddWorld magicFile) [.load "a.out",.start]

theorem shows_text_iff_magic : ShowsText (jgAddWorld magicFile) jgAddDecoder magicSession 0x1000 := by
  refine (shows_text_iff (jgAddWorld magicFile) jgAddDecoder (jgAdd_capstone _) magicSession (sample_reachable _ _) rfl
    ?_ 0x1000 (by decide +kernel)).mpr ⟨by decide +kernel,by decide +kernel,?_⟩
  · unfold SDB.textInFile
    decide +kernel
  · exact @of_decide_eq_true _ (List.decidableBAll _ _) (by decide +kernel)

end Unixprog.Sdb
