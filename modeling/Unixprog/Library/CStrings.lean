import Mathlib.Data.BitVec
import Mathlib.Data.List.TakeWhile

/-! C strings as lists of characters, the terminating NUL left out, and the
library functions that cut and read them. -/
namespace Unixprog.CStrings

/-- `strtok` on the text that the previous call left: the token, if any, and the
text the next call starts from. -/
def strtok (delimiters text : List Char) : Option (List Char) × List Char :=
  match text.dropWhile (· ∈ delimiters) with
  | [] => (none,[])
  | first::rest =>
    (some ((first::rest).takeWhile (· ∉ delimiters)),
      ((first::rest).dropWhile (· ∉ delimiters)).drop 1)

/-- Whether `strstr` finds the word in the text. -/
def strstr (text word : List Char) : Bool := text.tails.any fun rest => word.isPrefixOf rest

def isSpace (c : Char) : Bool := c ∈ [' ','\t','\n','\x0b','\x0c','\r']

def hexDigit (c : Char) : Option Nat :=
  if '0' ≤ c ∧ c ≤ '9' then some (c.toNat-48)
  else if 'a' ≤ c ∧ c ≤ 'f' then some (c.toNat-87)
  else if 'A' ≤ c ∧ c ≤ 'F' then some (c.toNat-55)
  else none

def hexDigits (value : Nat) : List Char → Nat
  | [] => value
  | c::rest => match hexDigit c with
    | none => value
    | some digit => hexDigits (value*16+digit) rest

def decDigit (c : Char) : Option Nat := if '0' ≤ c ∧ c ≤ '9' then some (c.toNat-48) else none

def decDigits (value : Nat) : List Char → Nat
  | [] => value
  | c::rest => match decDigit c with
    | none => value
    | some digit => decDigits (value*10+digit) rest

def strtol10 (text : List Char) : Int :=
  match text.dropWhile isSpace with
  | '-'::rest => max (-(decDigits 0 rest : Int)) (-2^63)
  | '+'::rest => min (decDigits 0 rest) (2^63-1)
  | rest => min (decDigits 0 rest) (2^63-1)

def atoi (text : List Char) : Int := (BitVec.ofInt 32 (strtol10 text)).toInt

def numeral (text : List Char) : Option Nat :=
  if text ≠ [] ∧ text.all fun c => (decDigit c).isSome then some (decDigits 0 text) else none

/-- A line without the newline at its end, if there is one. -/
def chomp (line : List Char) : List Char := if line.getLast? = some '\n' then line.dropLast else line

theorem chomp_length (line : List Char) : (chomp line).length ≤ line.length := by
  unfold chomp
  split <;> simp

theorem chomp_newline (line : List Char) : chomp (line ++ ['\n']) = line := by simp [chomp]

theorem chomp_clean {line : List Char} (clean : '\n' ∉ line) : chomp line = line :=
  if_neg fun last => clean (List.mem_of_getLast? last)

theorem strstr_iff (text word : List Char) : strstr text word = true ↔ word <:+: text := by
  rw [strstr,List.any_eq_true,List.infix_iff_prefix_suffix]
  constructor
  · rintro ⟨rest,member,found⟩
    exact ⟨rest,List.isPrefixOf_iff_prefix.mp found,(List.mem_tails rest text).mp member⟩
  · rintro ⟨rest,found,suffix⟩
    exact ⟨rest,(List.mem_tails rest text).mpr suffix,List.isPrefixOf_iff_prefix.mpr found⟩

theorem digit_plain (c : Char) (digit : (decDigit c).isSome) : isSpace c = false ∧ c ≠ '-' ∧ c ≠ '+' := by
  have range : '0' ≤ c ∧ c ≤ '9' := by
    by_contra outside
    simp [decDigit,outside] at digit
  have apart (d : Char) (other : ¬ ('0' ≤ d ∧ d ≤ '9')) : c ≠ d := by
    rintro rfl
    exact other range
  refine ⟨?_,apart _ (by decide),apart _ (by decide)⟩
  simp only [isSpace,List.mem_cons,List.not_mem_nil,or_false,decide_eq_false_iff_not,not_or]
  exact ⟨apart _ (by decide),apart _ (by decide),apart _ (by decide),apart _ (by decide),apart _ (by decide),
    apart _ (by decide)⟩

theorem strtol10_digit {c : Char} (digit : (decDigit c).isSome) (rest : List Char) :
    strtol10 (c::rest) = min (decDigits 0 (c::rest) : Int) (2^63-1) := by
  obtain ⟨plain,minus,plus⟩ := digit_plain c digit
  have kept : (c::rest).dropWhile isSpace = c::rest := by simp [List.dropWhile,plain]
  rw [strtol10,kept]
  split
  next same => cases same; exact absurd rfl minus
  next same => cases same; exact absurd rfl plus
  next => rfl

theorem strtol10_numeral {text : List Char} {k : Nat} (stands : numeral text = some k) :
    strtol10 text = min (k : Int) (2^63-1) := by
  unfold numeral at stands
  split at stands
  next digits =>
    cases stands
    obtain ⟨c,rest,rfl⟩ := List.exists_cons_of_ne_nil digits.1
    exact strtol10_digit (List.all_eq_true.mp digits.2 c List.mem_cons_self) rest
  next => cases stands

theorem atoi_numeral {text : List Char} {k : Nat} (stands : numeral text = some k) (small : k < 2^31) :
    atoi text = k := by
  rw [atoi,strtol10_numeral stands,min_eq_left (by omega),BitVec.toInt_ofInt,Int.bmod_eq_of_le (by omega) (by omega)]

theorem atoi_small (text : List Char) : atoi text < 2^31 := BitVec.toInt_lt

theorem strtok_whole {delimiters text : List Char} (some : text ≠ []) (plain : ∀ c ∈ text, c ∉ delimiters) :
    (strtok delimiters text).1 = Option.some text := by
  obtain ⟨c,rest,rfl⟩ := List.exists_cons_of_ne_nil some
  have kept : (c::rest).dropWhile (· ∈ delimiters) = c::rest := by
    simp [List.dropWhile,plain c List.mem_cons_self]
  have whole : (c::rest).takeWhile (· ∉ delimiters) = c::rest :=
    List.takeWhile_eq_self_iff.mpr fun d member => decide_eq_true (plain d member)
  rw [strtok,kept]
  exact congrArg Option.some whole

def skipHexMark : List Char → List Char
  | '0'::x::d::rest =>
    if (x = 'x' ∨ x = 'X') ∧ (hexDigit d).isSome then d::rest else '0'::x::d::rest
  | text => text

/-- `strtoul(text,NULL,16)`: out of range gives ULONG_MAX, a sign negates. -/
def strtoul16 (text : List Char) : BitVec 64 :=
  let body := text.dropWhile isSpace
  let (negative,digits) := match body with
    | '-'::rest => (true,rest)
    | '+'::rest => (false,rest)
    | rest => (false,rest)
  let value := hexDigits 0 (skipHexMark digits)
  if 2^64 ≤ value then BitVec.allOnes 64
  else if negative then -BitVec.ofNat 64 value else BitVec.ofNat 64 value

/-- All tokens of a text, by calling strtok until it returns NULL. A token takes at
least one character, so the length of the text bounds their number. -/
def strtoks (delimiters : List Char) : Nat → List Char → List (List Char)
  | 0,_ => []
  | left+1,text => match strtok delimiters text with
    | (none,_) => []
    | (some token,rest) => token::strtoks delimiters left rest

example : strtoul16 "0x4000c6".toList = 0x4000c6#64 := by decide

end Unixprog.CStrings
