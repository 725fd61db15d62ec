import Mathlib.Data.List.DropRight
import Unixprog.Library.Tokens
import Unixprog.Logger.Shared

/-! The log read back: which functions were called, and what they returned. -/
namespace Unixprog.Logger
open Words Plays CStrings

/-! A reader of the log. -/

def readNumber : Str → Int
  | '-'::digits => -(decDigits 0 digits : Int)
  | digits => decDigits 0 digits

def readPointer (text : Str) : Int := if text = "(nil)".toList then 0 else hexDigits 0 (text.drop 2)

def Fn.all : List Fn := [.chmod,.chown,.close,.creat,.creat64,.fclose,.fopen,.fopen64,.fread,.fwrite,.open,.open64,
  .read,.remove,.rename,.tmpfile,.tmpfile64,.write]

def Fn.ofName (name : Str) : Option Fn := Fn.all.find? fun f => f.name.toList = name

/-- The functions that return a `FILE *`. -/
def Fn.pointers : Fn → Bool
  | .fopen => true
  | .fopen64 => true
  | .tmpfile => true
  | .tmpfile64 => true
  | _ => false

/-- The function that a line names, and the result in its last word. -/
def readLine (line : Str) : Option (Fn × Int) :=
  if "[logger] ".toList.isPrefixOf line then
    (Fn.ofName ((line.drop 9).takeWhile (· ≠ '('))).map fun f =>
      let last := line.rtakeWhile (· ≠ ' ')
      (f,if f.pointers then readPointer last else readNumber last)
  else none

def readLog (text : Str) : List (Fn × Int) := (text.splitOn '\n').filterMap readLine

/-! The reader undoes the formats. -/

theorem ofName_name (f : Fn) : Fn.ofName f.name.toList = some f := by cases f <;> rfl

theorem name_plain (f : Fn) : '(' ∉ f.name.toList := by cases f <;> decide

theorem decimal_chars (n : Int) : ∀ c ∈ decimal n, c = '-' ∨ (decDigit c).isSome = true := by
  cases n with
  | ofNat k =>
    rw [decimal,show toString (Int.ofNat k) = toString k from rfl,toString_digits]
    exact fun c member => .inr (toDigits_dec k c member)
  | negSucc k =>
    rw [decimal,show toString (Int.negSucc k) = "-" ++ toString (k+1) from rfl,String.toList_append,toString_digits]
    intro c member
    obtain sign | digit := List.mem_append.mp member
    · exact .inl (List.mem_singleton.mp sign)
    · exact .inr (toDigits_dec (k+1) c digit)

theorem pointer_chars (n : Int) : ∀ c ∈ pointer n, c ∈ "(nil)x".toList ∨ (hexDigit c).isSome = true := by
  intro c member
  unfold pointer at member
  split at member
  next => exact .inl (List.mem_append_left "x".toList member)
  next =>
    obtain mark | digit := List.mem_append.mp member
    · obtain rfl | rfl : c = '0' ∨ c = 'x' := by simpa using mark
      · exact .inr rfl
      · exact .inl (by decide)
    · exact .inr (toDigits_hex n.toNat c digit)

theorem shown_plain {d : Char} (space : d = ' ' ∨ d = '\n') (result : Int) (call : Call) : d ∉ call.shown result := by
  have number : d ∉ decimal result := by
    intro member
    obtain rfl | digit := decimal_chars result d member
    · obtain same | same := space <;> cases same
    · obtain rfl | rfl := space <;> cases digit
  have address : d ∉ pointer result := by
    intro member
    obtain mark | digit := pointer_chars result d member
    · obtain rfl | rfl := space <;> revert mark <;> decide
    · obtain rfl | rfl := space <;> cases digit
  cases call <;> first | exact number | exact address

theorem readNumber_decimal (n : Int) : readNumber (decimal n) = n := by
  cases n with
  | ofNat k =>
    have digits : decimal (Int.ofNat k) = Nat.toDigits 10 k := toString_digits k
    have read := decDigits_toDigits k
    have plain := toDigits_dec k
    rw [digits]
    obtain ⟨c,rest,same⟩ := List.exists_cons_of_ne_nil (Nat.toDigits_ne_nil (b := 10) (n := k))
    rw [same] at read plain ⊢
    unfold readNumber
    split
    next sign => cases sign; cases plain '-' List.mem_cons_self
    next => rw [read]; rfl
  | negSucc k =>
    have text : decimal (Int.negSucc k) = '-'::Nat.toDigits 10 (k+1) := by
      rw [decimal,show toString (Int.negSucc k) = "-" ++ toString (k+1) from rfl,String.toList_append,toString_digits]
      rfl
    rw [text,readNumber,decDigits_toDigits]
    rfl

theorem readPointer_pointer {n : Int} (address : 0 ≤ n) : readPointer (pointer n) = n := by
  unfold pointer
  split
  next null =>
    subst null
    rfl
  next =>
    have other : "0x".toList ++ Nat.toDigits 16 n.toNat ≠ "(nil)".toList := by
      intro same
      cases same
    have digits : hexDigits 0 (Nat.toDigits 16 n.toNat) = n.toNat := by
      rw [hexDigits_read]
      exact readDigits_toDigits (by omega) hexDigit_digitChar _
    rw [readPointer,if_neg other]
    change (hexDigits 0 (Nat.toDigits 16 n.toNat) : Int) = n
    rw [digits]
    exact Int.toNat_of_nonneg address

theorem rtakeWhile_word {d : Char} {word : Str} (plain : d ∉ word) (before : Str) :
    (before ++ d::word).rtakeWhile (· ≠ d) = word := by
  rw [List.rtakeWhile,List.reverse_append,List.reverse_cons,List.append_assoc,List.takeWhile_append_of_pos]
  · simp
  · intro c member
    simp only [decide_eq_true_eq]
    rintro rfl
    exact plain (List.mem_reverse.mp member)

/-! A text of one line. -/

structure OneLine (text line : Str) : Prop where
  ends : text = line ++ ['\n']
  plain : '\n' ∉ line

/-- A record without its newline. -/
def recordLine (f : Fn) (args : List Str) (result : Str) : Str :=
  "[logger] ".toList ++ (f.name.toList ++ '('::(", ".toList.intercalate args ++ (") =".toList ++ ' '::result)))

section Parts
variable (mark name body middle result : Str)

theorem parts_ends : mark ++ (name ++ ['(']) ++ body ++ (middle ++ [' ']) ++ result ++ ['\n'] =
    mark ++ (name ++ '('::(body ++ (middle ++ ' '::result))) ++ ['\n'] := by simp

theorem parts_last : mark ++ (name ++ '('::(body ++ (middle ++ ' '::result))) =
    mark ++ (name ++ '('::(body ++ middle)) ++ ' '::result := by simp

end Parts

theorem record_ends (f : Fn) (args : List Str) (result : Str) :
    record f args result = recordLine f args result ++ ['\n'] := by
  have opening : s!"[logger] {f.name}(".toList = "[logger] ".toList ++ (f.name.toList ++ ['(']) := by
    simp only [String.toList_append,List.append_assoc]
    rfl
  -- Rewriting would compare the literals letter by letter at every step.
  have opened := congrArg (fun text => text ++ ", ".toList.intercalate args ++ ") = ".toList ++ result ++ "\n".toList) opening
  exact opened.trans (parts_ends "[logger] ".toList f.name.toList (", ".toList.intercalate args) ") =".toList result)

theorem readLine_recordLine (call : Call) (args : List Str) {result : Int} (address : call.fn.pointers = true → 0 ≤ result) :
    readLine (recordLine call.fn args (call.shown result)) = some (call.fn,result) := by
  have marked : "[logger] ".toList.isPrefixOf (recordLine call.fn args (call.shown result)) = true :=
    List.isPrefixOf_iff_prefix.mpr (List.prefix_append _ _)
  have named : ((recordLine call.fn args (call.shown result)).drop 9).takeWhile (· ≠ '(') = call.fn.name.toList := by
    change (call.fn.name.toList ++ '('::_).takeWhile (· ≠ '(') = _
    rw [List.takeWhile_append_of_pos]
    · simp
    · intro c member
      simp only [decide_eq_true_eq]
      rintro rfl
      exact name_plain call.fn member
  have last : (recordLine call.fn args (call.shown result)).rtakeWhile (· ≠ ' ') = call.shown result := by
    have split := parts_last "[logger] ".toList call.fn.name.toList (", ".toList.intercalate args) ") =".toList (call.shown result)
    exact (congrArg (List.rtakeWhile (· ≠ ' ')) split).trans (rtakeWhile_word (shown_plain (.inl rfl) result call) _)
  rw [readLine,if_pos marked,named,ofName_name,last,Option.map_some]
  have number : (if call.fn.pointers then readPointer (call.shown result) else readNumber (call.shown result)) = result := by
    cases call <;> first | exact readNumber_decimal result | exact readPointer_pointer (address rfl)
  simp only [number]

/-! What the texts of a call are, when no name has a newline in it. -/

/-- The names that the kernel gives have no newline, and a `FILE *` is an address. -/
def Clean : Sigma Answer → Prop
  | ⟨.realpath _,a⟩ => ∀ name, a.value = .path name → '\n' ∉ name
  | ⟨.readlink _,a⟩ => ∀ name, a.value = some name → '\n' ∉ name
  | ⟨.real call,a⟩ => call.fn.pointers = true → 0 ≤ a.value
  | _ => True

/-- With LOGGER at `n` and clean answers, the texts `ts` go to descriptor `n` and no other text is written. -/
def Journals {α : Type} (n : Int) (p : Op α) (texts : α → List Str → Prop) : Prop :=
  Ensures (Knows n) (fun x => Tells n x ∧ Clean x) p fun play value => ∃ ts, texts value ts ∧ logged play = ts.map (n,·)

section Rules
variable {α β : Type} {n : Int} {texts : α → List Str → Prop} {middle : β → List Str → Prop}

theorem Writes.journals {p : Op α} (writes : Writes n p texts) : Journals n p texts :=
  Ensures.fairer writes fun _ clean => clean.1

theorem journals_bind {first : Op β} {next : β → Op α} (one : Journals n first middle)
    (two : ∀ value before, middle value before → Journals n (next value) fun result ts => texts result (before ++ ts)) :
    Journals n (first >>= next) texts := by
  refine ensures_bind one ?_
  rintro head value ⟨before,told,same⟩
  refine Ensures.weaken (two value before told) ?_
  rintro tail result ⟨ts,told,rest⟩
  refine ⟨before ++ ts,told,?_⟩
  rw [logged_append,same,rest,List.map_append]

/-- A helper that writes nothing, and its value. -/
abbrev Gives (n : Int) (p : Op α) (value : α → Prop) : Prop := Journals n p fun a ts => value a ∧ ts = []

theorem gives_then {value : β → Prop} {first : Op β} {next : β → Op α} (gives : Gives n first value)
    (rest : ∀ b, value b → Journals n (next b) texts) : Journals n (first >>= next) texts := by
  refine journals_bind gives ?_
  rintro b _ ⟨told,rfl⟩
  exact rest b told

theorem gives_query (q : Query) {value : α → Prop} {next : Answer q → Op α} (silent : ∀ a, logged [⟨q,a⟩] = [])
    (rest : ∀ a, Clean ⟨q,a⟩ → Gives n (next a) value) : Gives n (query q >>= next) value := by
  refine ensures_query q fun a fair => Ensures.weaken (rest a fair.2) ?_
  rintro play result ⟨ts,told,same⟩
  refine ⟨ts,told,?_⟩
  change logged ([⟨q,a⟩] ++ play) = _
  rw [logged_append,silent a,List.nil_append,same]

theorem gives_pure {value : α → Prop} (a : α) (told : value a) : Gives n (pure a : Op α) value :=
  Writes.journals (writes_pure a ⟨told,rfl⟩)

theorem gives_stop {value : α → Prop} (why : Stop) : Gives n (stop why : Op α) value := ensures_stop why

end Rules

abbrev Nameable (name : Str) : Prop := '\n' ∉ name

theorem gives_getAbsPath (n : Int) (path : Path) : Gives n (getAbsPath path) Nameable := by
  refine gives_query _ (fun _ => rfl) ?_
  rintro ⟨value,errno⟩ clean
  cases value with
  | path name =>
    simp only
    split
    · exact gives_pure name (clean name rfl)
    · exact gives_stop _
  | failed left =>
    simp only
    split
    · exact gives_pure _ (by decide)
    · exact gives_stop _
  | fault => exact gives_stop _

theorem gives_FD2name (n fd : Int) : Gives n (FD2name fd) Nameable := by
  refine gives_query _ (fun _ => rfl) fun pid _ => gives_query _ (fun _ => rfl) ?_
  rintro ⟨value,errno⟩ clean
  cases value with
  | none => exact gives_pure _ List.not_mem_nil
  | some name =>
    simp only
    split
    · exact gives_pure name (clean name rfl)
    · exact gives_stop _

theorem gives_FILE2name (n : Int) (stream : Stream) : Gives n (FILE2name stream) Nameable :=
  gives_query _ (fun _ => rfl) fun fd _ => gives_FD2name n fd.value

theorem gives_callReal (n : Int) (call : Call) : Gives n (callReal call) fun result => call.fn.pointers = true → 0 ≤ result :=
  gives_query _ (fun _ => rfl) fun reply clean => gives_pure reply.value clean

/-! The pieces of the texts. -/

theorem nameable_append {a b : Str} : Nameable (a ++ b) ↔ Nameable a ∧ Nameable b := by
  rw [Nameable,List.mem_append,not_or]

theorem nameable_quoted {name : Str} (nameable : Nameable name) : Nameable (quoted name) :=
  nameable_append.mpr ⟨nameable_append.mpr ⟨by decide,nameable⟩,by decide⟩

theorem nameable_decimal (n : Int) : Nameable (decimal n) := shown_plain (.inr rfl) n (.close 0)

theorem nameable_pointer (n : Int) : Nameable (pointer n) := shown_plain (.inr rfl) n .tmpfile

theorem nameable_octal (n : BitVec 32) : Nameable (octal n) := by
  intro member
  have undoes : ∀ d < 8, decDigit d.digitChar = some d := fun d small => decDigit_digitChar d (by omega)
  cases toDigits_digits (by decide) undoes n.toNat _ member

theorem nameable_byte : ∀ c : Byte, Nameable (printed c) := by decide

theorem nameable_printed (seen : List Byte) : Nameable (seen.map printed).flatten := by
  induction seen with
  | nil => exact List.not_mem_nil
  | cons c seen ih =>
    rw [List.map_cons,List.flatten_cons,nameable_append]
    exact ⟨nameable_byte c,ih⟩

theorem nameable_intercalate {args : List Str} (nameable : ∀ arg ∈ args, Nameable arg) :
    Nameable (", ".toList.intercalate args) := by
  induction args with
  | nil => exact List.not_mem_nil
  | cons arg args ih =>
    obtain ⟨first,others⟩ := List.forall_mem_cons.mp nameable
    cases args with
    | nil => simpa using first
    | cons next args =>
      rw [List.intercalate_cons_cons,nameable_append,nameable_append]
      exact ⟨⟨first,by decide⟩,ih others⟩

theorem nameable_name (f : Fn) : Nameable f.name.toList := by cases f <;> decide

/-! What the wrappers write. -/

/-- The texts together are one line, and where the call gives a `FILE *`, it is an address. -/
structure Lined (f : Fn) (value : Int) (ts : List Str) : Prop where
  line : ∃ line, OneLine ts.flatten line
  address : f.pointers = true → 0 ≤ value

theorem oneLine_record {f : Fn} {args : List Str} {result : Str} (nameable : ∀ arg ∈ args, Nameable arg)
    (clean : Nameable result) : ∃ line, OneLine (record f args result) line := by
  refine ⟨recordLine f args result,record_ends f args result,?_⟩
  refine nameable_append.mpr ⟨by decide,nameable_append.mpr ⟨nameable_name f,?_⟩⟩
  refine List.not_mem_cons_of_ne_of_not_mem (by decide) (nameable_append.mpr ⟨nameable_intercalate nameable,?_⟩)
  exact nameable_append.mpr ⟨by decide,List.not_mem_cons_of_ne_of_not_mem (by decide) clean⟩

theorem lined_once {f : Fn} {value : Int} {text : Str} (line : ∃ line, OneLine text line)
    (address : f.pointers = true → 0 ≤ value) : Lined f value [text] := by
  refine ⟨?_,address⟩
  rwa [List.flatten_singleton]

theorem opening_plain (f : Fn) : Nameable s!"[logger] {f.name}(".toList := by
  simp only [String.toList_append]
  exact nameable_append.mpr ⟨nameable_append.mpr ⟨by decide,nameable_name f⟩,by decide⟩

theorem stream_opening_plain (f : Fn) : Nameable s!"[logger] {f.name}(\"".toList := by
  simp only [String.toList_append]
  exact nameable_append.mpr ⟨nameable_append.mpr ⟨by decide,nameable_name f⟩,by decide⟩

section Wrappers
variable (n : Int)

theorem journals_last {f : Fn} {text : Str} {result : Int} (line : ∃ line, OneLine text line)
    (address : f.pointers = true → 0 ≤ result) : Journals n (log text >>= fun _ => pure result : Op Int) (Lined f) := by
  refine (writes_last n text result).weaken ?_ |>.journals
  rintro _ _ ⟨rfl,rfl⟩
  exact lined_once line address

theorem journals_found (f : Fn) {rest : Op Int} {texts : Int → List Str → Prop} (journals : Journals n rest texts) :
    Journals n (find_fptr f >>= fun _ => CHECKER f >>= fun _ => rest) texts := by
  rw [← then_assoc]
  refine journals_bind (silent_lookup n f).journals ?_
  rintro _ _ rfl
  exact journals

theorem journals_resolveFirst (real : Call) (path : Path) {text : Str → Int → Str}
    (lines : ∀ name value, Nameable name → ∃ line, OneLine (text name value) line) :
    Journals n (resolveFirst real.fn path real text) (Lined real.fn) := by
  refine journals_found n _ (gives_then (gives_getAbsPath n path) fun name nameable => ?_)
  exact gives_then (gives_callReal n real) fun value address => journals_last n (lines name value nameable) address

theorem journals_resolveLast (real : Call) (path : Path) {text : Str → Int → Str}
    (lines : ∀ name value, Nameable name → ∃ line, OneLine (text name value) line) :
    Journals n (resolveLast real.fn path real text) (Lined real.fn) := by
  refine journals_found n _ (gives_then (gives_callReal n real) fun value address => ?_)
  exact gives_then (gives_getAbsPath n path) fun name nameable => journals_last n (lines name value nameable) address

theorem journals_temporary (real : Call) : Journals n (temporary real.fn real) (Lined real.fn) :=
  journals_found n _ (gives_then (gives_callReal n real) fun value address =>
    journals_last n (oneLine_record (List.forall_mem_nil _) (nameable_pointer value)) address)

theorem journals_transfer (real : Call) {name : Op Str} (gives : Gives n name Nameable) (buf : Word) (count : Nat)
    {head : Str → Str} {tail : Str → Int → Str} (opens : ∀ name, Nameable name → Nameable (head name))
    (lines : ∀ name value, Nameable name → ∃ line, OneLine (tail name value) line) :
    Journals n (transfer real.fn name buf count real head tail) (Lined real.fn) := by
  refine journals_found n _ (gives_then (gives_callReal n real) fun value address => ?_)
  refine gives_then gives fun name nameable => journals_bind (writes_log n (head name)).journals ?_
  rintro _ _ rfl
  refine journals_bind (writes_preview n buf count value 32 0).journals ?_
  rintro _ _ ⟨seen,rfl⟩
  obtain ⟨line,ends,plain⟩ := lines name value nameable
  refine (writes_last n _ value).weaken ?_ |>.journals
  rintro _ _ ⟨rfl,rfl⟩
  refine ⟨⟨head name ++ ((seen.map printed).flatten ++ line),?_,?_⟩,address⟩
  · simp [ends]
  · exact nameable_append.mpr ⟨opens name nameable,nameable_append.mpr ⟨nameable_printed seen,plain⟩⟩

theorem journals_rename (old new : Path) : Journals n (Logger.rename old new) (Lined .rename) := by
  refine journals_found n _ (gives_then (gives_getAbsPath n old) fun r_old nameable => ?_)
  refine gives_then (gives_callReal n (.rename old new)) fun value address => ?_
  refine gives_then (gives_getAbsPath n new) fun r_new nameable' => journals_last n ?_ address
  refine oneLine_record ?_ (nameable_decimal value)
  exact List.forall_mem_cons.mpr ⟨nameable_quoted nameable,List.forall_mem_singleton.mpr (nameable_quoted nameable')⟩

theorem oneLine_named {f : Fn} {name : Str} (nameable : Nameable name) (value : Int) :
    ∃ line, OneLine (record f [quoted name] (decimal value)) line :=
  oneLine_record (List.forall_mem_singleton.mpr (nameable_quoted nameable)) (nameable_decimal value)

theorem journals_close (fildes : Int) : Journals n (Logger.close fildes) (Lined .close) := by
  refine journals_found n _ (gives_then (gives_FD2name n fildes) fun name nameable => ?_)
  have ending (result : Int) : Journals n (log (record .close [quoted name] (decimal result)) >>= fun _ => pure result)
      (Lined .close) := journals_last n (oneLine_named nameable result) nofun
  split
  · exact gives_then (gives_callReal n _) fun result _ => ending result
  · exact ending 0

theorem journals_fclose (stream : Stream) : Journals n (Logger.fclose stream) (Lined .fclose) := by
  refine journals_found n _ (gives_then (gives_FILE2name n stream) fun name nameable => ?_)
  have ending (result : Int) : Journals n (log (record .fclose [quoted name] (decimal result)) >>= fun _ => pure result)
      (Lined .fclose) := journals_last n (oneLine_named nameable result) nofun
  split
  · exact gives_then (gives_callReal n _) fun result _ => ending result
  · exact ending 0

theorem oneLine_stream (size nmemb : Nat) (name : Str) (value : Int) (nameable : Nameable name) :
    ∃ line, OneLine ("\", ".toList ++ decimal size ++ ", ".toList ++ decimal nmemb ++ ", ".toList ++ quoted name ++
      ") = ".toList ++ decimal value ++ "\n".toList) line := by
  refine ⟨_,rfl,?_⟩
  simp only [nameable_append]
  exact ⟨⟨⟨⟨⟨⟨⟨by decide,nameable_decimal _⟩,by decide⟩,nameable_decimal _⟩,by decide⟩,nameable_quoted nameable⟩,by decide⟩,
    nameable_decimal _⟩

theorem oneLine_file (nbyte : Nat) (value : Int) :
    ∃ line, OneLine ("\", ".toList ++ decimal nbyte ++ ") = ".toList ++ decimal value ++ "\n".toList) line := by
  refine ⟨_,rfl,?_⟩
  simp only [nameable_append]
  exact ⟨⟨⟨by decide,nameable_decimal _⟩,by decide⟩,nameable_decimal _⟩

/-- The mode of fopen is shown as it is given. -/
def Call.Plain : Call → Prop
  | .fopen _ mode => Nameable mode
  | .fopen64 _ mode => Nameable mode
  | _ => True

theorem perform_journals (call : Call) (plain : call.Plain) : Journals n call.perform (Lined call.fn) := by
  have pair {a b : Str} (first : Nameable a) (second : Nameable b) : ∀ arg ∈ [a,b], Nameable arg :=
    List.forall_mem_cons.mpr ⟨first,List.forall_mem_singleton.mpr second⟩
  have names {f : Fn} {args : List Str} (others : ∀ arg ∈ args, Nameable arg) (name : Str) (value : Int)
      (nameable : Nameable name) : ∃ line, OneLine (record f (quoted name::args) (decimal value)) line :=
    oneLine_record (List.forall_mem_cons.mpr ⟨nameable_quoted nameable,others⟩) (nameable_decimal value)
  have opened {f : Fn} {mode : Str} (plain : Nameable mode) (name : Str) (value : Int) (nameable : Nameable name) :
      ∃ line, OneLine (record f [quoted name,quoted mode] (pointer value)) line :=
    oneLine_record (pair (nameable_quoted nameable) (nameable_quoted plain)) (nameable_pointer value)
  have head (f : Fn) (name : Str) (nameable : Nameable name) :
      Nameable (s!"[logger] {f.name}(".toList ++ quoted name ++ ", \"".toList) :=
    nameable_append.mpr ⟨nameable_append.mpr ⟨opening_plain f,nameable_quoted nameable⟩,by decide⟩
  cases call with
  | chmod path mode =>
    exact journals_resolveFirst n (.chmod path mode) path (names (List.forall_mem_singleton.mpr (nameable_octal mode)))
  | chown path owner group =>
    exact journals_resolveFirst n (.chown path owner group) path (names (pair (nameable_decimal _) (nameable_decimal _)))
  | close fildes => exact journals_close n fildes
  | creat path mode =>
    exact journals_resolveLast n (.creat path mode) path (names (List.forall_mem_singleton.mpr (nameable_octal mode)))
  | creat64 path mode =>
    exact journals_resolveLast n (.creat64 path mode) path (names (List.forall_mem_singleton.mpr (nameable_octal mode)))
  | fclose stream => exact journals_fclose n stream
  | fopen pathname mode => exact journals_resolveLast n (.fopen pathname mode) pathname (opened plain)
  | fopen64 pathname mode => exact journals_resolveLast n (.fopen64 pathname mode) pathname (opened plain)
  | fread ptr size nmemb stream =>
    exact journals_transfer n (.fread ptr size nmemb stream) (gives_FILE2name n stream) ptr nmemb
      (fun _ _ => stream_opening_plain .fread) (oneLine_stream size nmemb)
  | fwrite ptr size nmemb stream =>
    exact journals_transfer n (.fwrite ptr size nmemb stream) (gives_FILE2name n stream) ptr nmemb
      (fun _ _ => stream_opening_plain .fwrite) (oneLine_stream size nmemb)
  | «open» pathname flags mode =>
    exact journals_resolveLast n (.open pathname flags (modeOf flags mode)) pathname
      (names (pair (nameable_octal _) (nameable_octal _)))
  | open64 pathname flags mode =>
    exact journals_resolveLast n (.open64 pathname flags (modeOf flags mode)) pathname
      (names (pair (nameable_octal _) (nameable_octal _)))
  | read fildes buf nbyte =>
    exact journals_transfer n (.read fildes buf nbyte) (gives_FD2name n fildes) buf nbyte (head .read)
      fun _ value _ => oneLine_file nbyte value
  | remove pathname => exact journals_resolveFirst n (.remove pathname) pathname (names (List.forall_mem_nil _))
  | rename old new => exact journals_rename n old new
  | tmpfile => exact journals_temporary n .tmpfile
  | tmpfile64 => exact journals_temporary n .tmpfile64
  | write fildes buf nbyte =>
    exact journals_transfer n (.write fildes buf nbyte) (gives_FD2name n fildes) buf nbyte (head .write)
      fun _ value _ => oneLine_file nbyte value

end Wrappers

/-! Sessions. -/

theorem session_lined {n : Int} {statics : Statics} {calls : List Interaction} (made : Session statics calls)
    (knows : Knows n statics) (tells : ∀ i ∈ calls, ∀ x ∈ i.play, Tells n x) (clean : ∀ i ∈ calls, ∀ x ∈ i.play, Clean x)
    (plain : ∀ i ∈ calls, i.call.Plain) :
    ∀ i ∈ calls, ∀ result, i.ending.result = some result → Lined i.call.fn result (i.texts n) := by
  induction made with
  | nil statics => exact fun i member => absurd member List.not_mem_nil
  | returned statics errno call play result after rest goes later ih =>
    obtain ⟨told,tells⟩ := List.forall_mem_cons.mp tells
    obtain ⟨cleanly,clean⟩ := List.forall_mem_cons.mp clean
    obtain ⟨plainly,plain⟩ := List.forall_mem_cons.mp plain
    obtain ⟨knows',ts,lined,same⟩ := perform_journals n call plainly statics play result after goes knows fun x member =>
      ⟨told x member,cleanly x member⟩
    refine List.forall_mem_cons.mpr ⟨?_,ih knows' tells clean plain⟩
    rintro _ ⟨⟩
    have texts : Interaction.texts n ⟨errno,call,play,.done result after⟩ = ts := by
      simp only [Interaction.texts,same]
      rw [List.filter_eq_self.mpr (by simp),List.map_map]
      exact List.map_id ts
    rw [texts]
    exact lined
  | stopped statics errno call play why goes =>
    rintro i member result returned
    cases List.mem_singleton.mp member
    cases returned

theorem recorded_reads {call : Call} {result : Int} {ts : List Str} (recorded : Recorded call result ts)
    (lined : Lined call.fn result ts) : ∃ line, OneLine ts.flatten line ∧ readLine line = some (call.fn,result) := by
  obtain ⟨args,same⟩ := recorded.record
  obtain ⟨line,one⟩ := lined.line
  have line_eq : recordLine call.fn args (call.shown result) = line := by
    have ends := one.ends
    rw [same,record_ends] at ends
    exact List.append_cancel_right ends
  refine ⟨line,one,?_⟩
  rw [← line_eq]
  exact readLine_recordLine call args lined.address

theorem readLog_line {text line : Str} (one : OneLine text line) (rest : Str) :
    readLog (text ++ rest) = (readLine line).toList ++ readLog rest := by
  obtain ⟨rfl,plain⟩ := one
  rw [readLog,List.append_assoc,List.singleton_append,List.splitOn_append_cons_self_of_not_mem plain,List.filterMap_cons]
  cases readLine line <;> rfl

theorem calls_read {n : Int} {calls : List Interaction} (reads : ∀ i ∈ calls, ∃ result line, i.ending.result = some result ∧
    OneLine (i.texts n).flatten line ∧ readLine line = some (i.call.fn,result)) :
    readLog ((calls.map (·.texts n)).flatten).flatten = calls.filterMap fun i => i.ending.result.map (i.call.fn,·) := by
  induction calls with
  | nil => rfl
  | cons i calls ih =>
    obtain ⟨⟨result,line,returned,one,read⟩,later⟩ := List.forall_mem_cons.mp reads
    rw [List.map_cons,List.flatten_cons,List.flatten_append,readLog_line one,read,ih later,List.filterMap_cons,returned]
    rfl

/-- The log of a session whose calls all return, read line by line, tells which functions
were called, in what order, and what each returned. -/
theorem log_reads_back {n : Int} (process : Logging n) (returned : ∀ i ∈ process.calls, i.ending.result.isSome)
    (clean : ∀ i ∈ process.calls, ∀ x ∈ i.play, Clean x) (plain : ∀ i ∈ process.calls, i.call.Plain) :
    readLog process.blocks.flatten.flatten = process.calls.filterMap fun i => i.ending.result.map (i.call.fn,·) := by
  refine calls_read fun i member => ?_
  obtain ⟨result,ended⟩ := Option.isSome_iff_exists.mp (returned i member)
  have recorded := session_recorded process.made process.knows process.tells i member result ended
  have lined := session_lined process.made process.knows process.tells clean plain i member result ended
  obtain ⟨line,one,read⟩ := recorded_reads recorded lined
  exact ⟨result,line,ended,one,read⟩

theorem sampleAnswer_clean (q : Query) : Clean ⟨q,sampleAnswer q⟩ := by
  cases q with
  | realpath path =>
    rintro name ⟨⟩
    decide
  | readlink path =>
    rintro name ⟨⟩
    decide
  | real call => exact fun _ => le_refl 0
  | _ => trivial

theorem log_reads_back_read : readLog (callOnce (.read 3 0x1000 0)).blocks.flatten.flatten = [(.read,0)] := by
  refine (log_reads_back (callOnce (.read 3 0x1000 0)) ?_ ?_ ?_).trans rfl
  · exact List.forall_mem_singleton.mpr rfl
  · refine List.forall_mem_singleton.mpr fun x member => ?_
    rw [play_answers _ _ x member]
    exact sampleAnswer_clean x.1
  · exact List.forall_mem_singleton.mpr trivial

end Unixprog.Logger
