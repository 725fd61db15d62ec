import Unixprog.Library.CStrings

/-! What strtok cuts from a text of known shape, and numbers that printf wrote, read back. -/
namespace Unixprog.CStrings

/-! Tokens. -/

section Tokens
variable {delimiters gap token rest : List Char}

theorem dropWhile_gap (gaps : ∀ c ∈ gap, c ∈ delimiters) (rest : List Char) :
    (gap ++ rest).dropWhile (· ∈ delimiters) = rest.dropWhile (· ∈ delimiters) := by
  induction gap with
  | nil => rfl
  | cons c gap ih =>
    rw [List.cons_append,List.dropWhile_cons_of_pos (by simpa using gaps c List.mem_cons_self)]
    exact ih fun d member => gaps d (List.mem_cons_of_mem _ member)

theorem dropWhile_token (some : token ≠ []) (plain : ∀ c ∈ token, c ∉ delimiters) (rest : List Char) :
    (token ++ rest).dropWhile (· ∈ delimiters) = token ++ rest := by
  obtain ⟨c,token,rfl⟩ := List.exists_cons_of_ne_nil some
  rw [List.cons_append,List.dropWhile_cons_of_neg (by simpa using plain c List.mem_cons_self)]

theorem takeWhile_token (plain : ∀ c ∈ token, c ∉ delimiters) (rest : List Char) :
    (token ++ rest).takeWhile (· ∉ delimiters) = token ++ rest.takeWhile (· ∉ delimiters) := by
  rw [List.takeWhile_append_of_pos]
  intro c member
  simpa using plain c member

theorem dropWhile_plain (plain : ∀ c ∈ token, c ∉ delimiters) (rest : List Char) :
    (token ++ rest).dropWhile (· ∉ delimiters) = rest.dropWhile (· ∉ delimiters) := by
  rw [List.dropWhile_append_of_pos]
  intro c member
  simpa using plain c member

theorem strtok_nonempty {text : List Char} (some : text.dropWhile (· ∈ delimiters) ≠ []) :
    strtok delimiters text = (Option.some ((text.dropWhile (· ∈ delimiters)).takeWhile (· ∉ delimiters)),
      ((text.dropWhile (· ∈ delimiters)).dropWhile (· ∉ delimiters)).drop 1) := by
  unfold strtok
  split
  next empty => exact absurd empty some
  next first rest found => rw [← found]

theorem strtok_token {d : Char} (gaps : ∀ c ∈ gap, c ∈ delimiters) (some : token ≠ [])
    (plain : ∀ c ∈ token, c ∉ delimiters) (ends : d ∈ delimiters) :
    strtok delimiters (gap ++ (token ++ d::rest)) = (Option.some token,rest) := by
  have kept : (gap ++ (token ++ d::rest)).dropWhile (· ∈ delimiters) = token ++ d::rest :=
    (dropWhile_gap gaps _).trans (dropWhile_token some plain _)
  rw [strtok_nonempty (by rw [kept]; simp),kept,takeWhile_token plain,dropWhile_plain plain,
    List.takeWhile_cons_of_neg (by simpa using ends),List.dropWhile_cons_of_neg (by simpa using ends)]
  simp

theorem strtok_last (gaps : ∀ c ∈ gap, c ∈ delimiters) (some : token ≠ []) (plain : ∀ c ∈ token, c ∉ delimiters) :
    strtok delimiters (gap ++ token) = (Option.some token,[]) := by
  have kept : (gap ++ token).dropWhile (· ∈ delimiters) = token := by
    simpa using (dropWhile_gap gaps token).trans (by simpa using dropWhile_token some plain [])
  have taken := takeWhile_token plain []
  have dropped := dropWhile_plain plain []
  simp only [List.append_nil] at taken dropped
  rw [strtok_nonempty (by rwa [kept]),kept,taken,dropped]
  simp

theorem strtok_first {d : Char} (some : token ≠ []) (plain : ∀ c ∈ token, c ∉ delimiters) (ends : d ∈ delimiters) :
    strtok delimiters (token ++ d::rest) = (Option.some token,rest) := by
  have none : ∀ c ∈ ([] : List Char), c ∈ delimiters := fun c member => absurd member List.not_mem_nil
  exact strtok_token none some plain ends

theorem strtok_only (some : token ≠ []) (plain : ∀ c ∈ token, c ∉ delimiters) :
    strtok delimiters token = (Option.some token,[]) := by
  have none : ∀ c ∈ ([] : List Char), c ∈ delimiters := fun c member => absurd member List.not_mem_nil
  exact strtok_last none some plain

/-- The text has these words, with delimiters before, between and behind them. -/
inductive Laid (delimiters : List Char) : List Char → List (List Char) → Prop
  | blank {gap : List Char} (gaps : ∀ c ∈ gap, c ∈ delimiters) : Laid delimiters gap []
  | last {gap word : List Char} (gaps : ∀ c ∈ gap, c ∈ delimiters) (some : word ≠ [])
      (plain : ∀ c ∈ word, c ∉ delimiters) : Laid delimiters (gap ++ word) [word]
  | word {gap word rest : List Char} {d : Char} {words : List (List Char)} (gaps : ∀ c ∈ gap, c ∈ delimiters)
      (some : word ≠ []) (plain : ∀ c ∈ word, c ∉ delimiters) (ends : d ∈ delimiters)
      (later : Laid delimiters rest words) : Laid delimiters (gap ++ (word ++ d::rest)) (word::words)

theorem strtok_blank (gaps : ∀ c ∈ gap, c ∈ delimiters) : strtok delimiters gap = (none,[]) := by
  have dropped : gap.dropWhile (· ∈ delimiters) = [] :=
    List.dropWhile_eq_nil_iff.mpr fun c member => decide_eq_true (gaps c member)
  rw [strtok,dropped]

theorem strtoks_laid {text : List Char} {words : List (List Char)} (laid : Laid delimiters text words) (left : Nat)
    (enough : words.length ≤ left) : strtoks delimiters left text = words := by
  induction laid generalizing left with
  | blank gaps =>
    cases left with
    | zero => rfl
    | succ left => rw [strtoks,strtok_blank gaps]
  | last gaps some plain =>
    obtain ⟨left,rfl⟩ := Nat.exists_eq_add_of_le' enough
    have none : strtoks delimiters left [] = [] := by cases left <;> rfl
    rw [List.length_singleton,strtoks,strtok_last gaps some plain]
    exact congrArg _ none
  | word gaps some plain ends later ih =>
    obtain ⟨left,rfl⟩ := Nat.exists_eq_add_of_le' enough
    rw [List.length_cons,← Nat.add_assoc,strtoks,strtok_token gaps some plain ends]
    exact congrArg _ (ih _ (by omega))

theorem laid_length {text : List Char} {words : List (List Char)} (laid : Laid delimiters text words) :
    words.length ≤ text.length := by
  induction laid with
  | blank => exact Nat.zero_le _
  | last gaps some plain =>
    have positive := List.length_pos_of_ne_nil some
    simp only [List.length_append,List.length_singleton]
    omega
  | word gaps some plain ends later ih =>
    simp only [List.length_append,List.length_cons]
    omega

/-- Words with one delimiter between them. -/
theorem laid_intercalate {d : Char} (ends : d ∈ delimiters) (words : List (List Char))
    (plain : ∀ word ∈ words, word ≠ [] ∧ ∀ c ∈ word, c ∉ delimiters) :
    Laid delimiters (List.intercalate [d] words) words := by
  have none : ∀ c ∈ ([] : List Char), c ∈ delimiters := fun c member => absurd member List.not_mem_nil
  induction words with
  | nil => exact .blank none
  | cons word words ih =>
    obtain ⟨⟨some,clean⟩,others⟩ := List.forall_mem_cons.mp plain
    cases words with
    | nil =>
      have laid : Laid delimiters ([] ++ word) [word] := Laid.last none some clean
      simpa [List.intercalate] using laid
    | cons next words =>
      have laid : Laid delimiters ([] ++ word ++ d::_) _ := Laid.word none some clean ends (ih others)
      simpa [List.intercalate] using laid

end Tokens

theorem takeWhile_stop {c : Char} (stops : isSpace c = true) (text rest : List Char) :
    (text ++ c::rest).takeWhile (fun c => !isSpace c) = text.takeWhile fun c => !isSpace c := by
  have stop : (c::rest).takeWhile (fun c => !isSpace c) = [] := by simp [stops]
  rw [List.takeWhile_append]
  split
  next whole =>
    rw [stop,List.append_nil]
    exact ((List.takeWhile_prefix _).eq_of_length whole).symm
  next => rfl

/-! Numbers. -/

def hexText (width value : Nat) : List Char := (Nat.toDigits 16 value).leftpad width '0'

def readDigits (base : Nat) (digit : Char → Option Nat) (value : Nat) : List Char → Nat
  | [] => value
  | c::rest => match digit c with
    | none => value
    | some d => readDigits base digit (value*base+d) rest

theorem hexDigits_read (value : Nat) (text : List Char) : hexDigits value text = readDigits 16 hexDigit value text := by
  induction text generalizing value with
  | nil => rfl
  | cons c text ih =>
    rw [hexDigits,readDigits]
    cases hexDigit c with
    | none => rfl
    | some digit => exact ih _

theorem decDigits_read (value : Nat) (text : List Char) : decDigits value text = readDigits 10 decDigit value text := by
  induction text generalizing value with
  | nil => rfl
  | cons c text ih =>
    rw [decDigits,readDigits]
    cases decDigit c with
    | none => rfl
    | some digit => exact ih _

theorem readDigits_append (base : Nat) (digit : Char → Option Nat) (value : Nat) (text rest : List Char)
    (digits : ∀ c ∈ text, (digit c).isSome = true) :
    readDigits base digit value (text ++ rest) = readDigits base digit (readDigits base digit value text) rest := by
  induction text generalizing value with
  | nil => rfl
  | cons c text ih =>
    obtain ⟨d,found⟩ := Option.isSome_iff_exists.mp (digits c List.mem_cons_self)
    simp only [List.cons_append,readDigits,found]
    exact ih _ fun e member => digits e (List.mem_cons_of_mem _ member)

theorem readDigits_stop {base : Nat} {digit : Char → Option Nat} {text : List Char} {d : Char}
    (digits : ∀ c ∈ text, (digit c).isSome = true) (stops : digit d = none) (value : Nat) (rest : List Char) :
    readDigits base digit value (text ++ d::rest) = readDigits base digit value text := by
  rw [readDigits_append _ _ _ _ _ digits,readDigits,stops]

/-! Any reader that undoes `Nat.digitChar` below the base reads back what `Nat.toDigits` writes. -/

section Digits
variable {base : Nat} {digit : Char → Option Nat}

theorem toDigits_digits (large : 1 < base) (undoes : ∀ d < base, digit d.digitChar = some d) (value : Nat) :
    ∀ c ∈ Nat.toDigits base value, (digit c).isSome = true := by
  induction value using Nat.strongRecOn with
  | ind value ih =>
    intro c member
    rw [Nat.toDigits_eq_if large] at member
    split at member
    next small =>
      rw [List.mem_singleton.mp member,undoes _ small]
      rfl
    next more =>
      obtain before | last := List.mem_append.mp member
      · exact ih (value/base) (Nat.div_lt_self (by omega) large) c before
      · rw [List.mem_singleton.mp last,undoes _ (Nat.mod_lt _ (by omega))]
        rfl

theorem readDigits_toDigits (large : 1 < base) (undoes : ∀ d < base, digit d.digitChar = some d) (value : Nat) :
    readDigits base digit 0 (Nat.toDigits base value) = value := by
  induction value using Nat.strongRecOn with
  | ind value ih =>
    rw [Nat.toDigits_eq_if large]
    split
    next small => simp [readDigits,undoes _ small]
    next more =>
      rw [readDigits_append _ _ _ _ _ (toDigits_digits large undoes _),ih (value/base) (Nat.div_lt_self (by omega) large)]
      simp only [readDigits,undoes _ (Nat.mod_lt value (by omega : 0 < base))]
      rw [Nat.mul_comm]
      exact Nat.div_add_mod value base

end Digits

theorem hexDigit_digitChar (digit : Nat) (small : digit < 16) : hexDigit digit.digitChar = some digit := by
  match digit,small with
  | 0,_ | 1,_ | 2,_ | 3,_ | 4,_ | 5,_ | 6,_ | 7,_ | 8,_ | 9,_ | 10,_ | 11,_ | 12,_ | 13,_ | 14,_ | 15,_ => decide
  | more+16,small => omega

theorem decDigit_digitChar (digit : Nat) (small : digit < 10) : decDigit digit.digitChar = some digit := by
  match digit,small with
  | 0,_ | 1,_ | 2,_ | 3,_ | 4,_ | 5,_ | 6,_ | 7,_ | 8,_ | 9,_ => decide
  | more+10,small => omega

theorem toDigits_hex (value : Nat) : ∀ c ∈ Nat.toDigits 16 value, (hexDigit c).isSome = true :=
  toDigits_digits (by omega) hexDigit_digitChar value

theorem toDigits_dec (value : Nat) : ∀ c ∈ Nat.toDigits 10 value, (decDigit c).isSome = true :=
  toDigits_digits (by omega) decDigit_digitChar value

theorem decDigits_toDigits (value : Nat) : decDigits 0 (Nat.toDigits 10 value) = value := by
  rw [decDigits_read]
  exact readDigits_toDigits (by omega) decDigit_digitChar value

theorem decDigits_stop {d : Char} (stops : decDigit d = none) (value : Nat) (rest : List Char) :
    decDigits 0 (Nat.toDigits 10 value ++ d::rest) = value := by
  rw [decDigits_read,readDigits_stop (toDigits_dec value) stops,← decDigits_read,decDigits_toDigits]

theorem numeral_toDigits (value : Nat) : numeral (Nat.toDigits 10 value) = some value := by
  rw [numeral,if_pos ⟨Nat.toDigits_ne_nil,List.all_eq_true.mpr (toDigits_dec value)⟩,decDigits_toDigits]

theorem toString_digits (value : Nat) : (toString value).toList = Nat.toDigits 10 value := by
  rw [show toString value = value.repr from rfl,Nat.repr_eq_ofList_toDigits,String.toList_ofList]

/-- `%d` and atoi are inverse on every int. -/
theorem atoi_toString {n : Int} (low : -2^31 ≤ n) (high : n < 2^31) : atoi (toString n).toList = n := by
  cases n with
  | ofNat k =>
    have small : k < 2^31 := Int.ofNat_lt.mp high
    have text : (toString (Int.ofNat k)).toList = Nat.toDigits 10 k := toString_digits k
    rw [text,atoi_numeral (numeral_toDigits k) small]
    rfl
  | negSucc k =>
    have text : (toString (Int.negSucc k)).toList = '-'::Nat.toDigits 10 (k+1) := by
      rw [show toString (Int.negSucc k) = "-" ++ toString (k+1) from rfl,String.toList_append,toString_digits]
      rfl
    have read : strtol10 ('-'::Nat.toDigits 10 (k+1)) = max (-((k+1 : Nat) : Int)) (-2^63) := by
      have value := decDigits_toDigits (k+1)
      have kept : ('-'::Nat.toDigits 10 (k+1)).dropWhile isSpace = '-'::Nat.toDigits 10 (k+1) := rfl
      rw [strtol10,kept]
      change max (-(decDigits 0 (Nat.toDigits 10 (k+1)) : Int)) (-2^63) = _
      rw [value]
    rw [text,atoi,read,max_eq_left (by omega),BitVec.toInt_ofInt,Int.bmod_eq_of_le (by omega) (by omega)]
    rfl

theorem hexText_hex (width value : Nat) : ∀ c ∈ hexText width value, (hexDigit c).isSome = true := by
  intro c member
  obtain zero | digit := List.mem_append.mp member
  · rw [List.eq_of_mem_replicate zero]
    rfl
  · exact toDigits_hex value c digit

theorem hexText_some (width value : Nat) : hexText width value ≠ [] := by
  simp [hexText,List.leftpad]

theorem toDigits_short {width value : Nat} (positive : 0 < width) (fits : value < 16^width) :
    (Nat.toDigits 16 value).length ≤ width := (Nat.length_toDigits_le_iff (by omega) positive).mpr fits

theorem hexText_length {width value : Nat} (positive : 0 < width) (fits : value < 16^width) :
    (hexText width value).length = width := by
  rw [hexText,List.length_leftpad,max_eq_left (toDigits_short positive fits)]

theorem hexDigits_hexText (width value : Nat) : hexDigits 0 (hexText width value) = value := by
  have zeros (count : Nat) : readDigits 16 hexDigit 0 (List.replicate count '0') = 0 := by
    induction count with
    | zero => rfl
    | succ count ih => simpa [List.replicate_succ,readDigits,hexDigit] using ih
  have zero : ∀ c ∈ List.replicate (width-(Nat.toDigits 16 value).length) '0', (hexDigit c).isSome = true := by
    intro c member
    rw [List.eq_of_mem_replicate member]
    rfl
  rw [hexDigits_read,hexText,List.leftpad,readDigits_append _ _ _ _ _ zero,zeros]
  exact readDigits_toDigits (by omega) hexDigit_digitChar value

theorem hex_apart {c d : Char} (digit : (hexDigit c).isSome = true) (other : hexDigit d = none) : c ≠ d := by
  rintro rfl
  rw [other] at digit
  cases digit

theorem hex_nonspace {c : Char} (digit : (hexDigit c).isSome = true) : isSpace c = false := by
  simp only [isSpace,List.mem_cons,List.not_mem_nil,or_false,decide_eq_false_iff_not,not_or]
  exact ⟨hex_apart digit (by decide),hex_apart digit (by decide),hex_apart digit (by decide),
    hex_apart digit (by decide),hex_apart digit (by decide),hex_apart digit (by decide)⟩

theorem skipHexMark_hex {text : List Char} (digits : ∀ c ∈ text, (hexDigit c).isSome = true) :
    skipHexMark text = text := by
  unfold skipHexMark
  split
  next x d rest =>
    have second := digits x (by simp)
    rw [if_neg]
    rintro ⟨rfl | rfl,_⟩
    · cases second
    · cases second
  next => rfl

theorem strtoul16_hex {text : List Char} (some : text ≠ []) (digits : ∀ c ∈ text, (hexDigit c).isSome = true)
    (fits : hexDigits 0 text < 2^64) : strtoul16 text = BitVec.ofNat 64 (hexDigits 0 text) := by
  obtain ⟨c,rest,rfl⟩ := List.exists_cons_of_ne_nil some
  have first := digits c List.mem_cons_self
  have kept : (c::rest).dropWhile isSpace = c::rest :=
    List.dropWhile_cons_of_neg (by simp [hex_nonspace first])
  unfold strtoul16
  simp only [kept]
  split
  next same => cases same; cases first
  next same => cases same; cases first
  next =>
    rw [skipHexMark_hex digits,if_neg (by omega)]
    rfl

theorem strtoul16_hexText (width : Nat) (value : BitVec 64) : strtoul16 (hexText width value.toNat) = value := by
  rw [strtoul16_hex (hexText_some _ _) (hexText_hex _ _) (by rw [hexDigits_hexText]; exact value.isLt),
    hexDigits_hexText,BitVec.ofNat_toNat,BitVec.setWidth_eq]

theorem strtoul16_spaces {gap : List Char} (spaces : ∀ c ∈ gap, isSpace c = true) (text : List Char) :
    strtoul16 (gap ++ text) = strtoul16 text := by
  unfold strtoul16
  rw [List.dropWhile_append_of_pos spaces]

/-- What follows a digit sequence does not count, unless it makes a mark of a leading zero. -/
theorem strtoul16_stop {text : List Char} {d : Char} (some : text ≠ []) (digits : ∀ c ∈ text, (hexDigit c).isSome = true)
    (stops : hexDigit d = none) (mark : d ≠ 'x' ∧ d ≠ 'X') (rest : List Char) :
    strtoul16 (text ++ d::rest) = strtoul16 text := by
  have read : hexDigits 0 (text ++ d::rest) = hexDigits 0 text := by
    rw [hexDigits_read,hexDigits_read,readDigits_stop digits stops]
  obtain ⟨c,more,rfl⟩ := List.exists_cons_of_ne_nil some
  have first := digits c List.mem_cons_self
  have plain : isSpace c = false := hex_nonspace first
  have kept (after : List Char) : (c::after).dropWhile isSpace = c::after :=
    List.dropWhile_cons_of_neg (by simp [plain])
  have bare : skipHexMark (c::(more ++ d::rest)) = c::(more ++ d::rest) := by
    unfold skipHexMark
    split
    next x e others same =>
      rw [if_neg,same]
      rintro ⟨marked,_⟩
      cases more with
      | nil =>
        obtain rfl := (List.cons.inj (List.cons.inj same).2).1
        exact marked.elim mark.1 mark.2
      | cons y more =>
        obtain rfl := (List.cons.inj (List.cons.inj same).2).1
        have second := digits y (by simp)
        obtain rfl | rfl := marked
        · cases second
        · cases second
    next => rfl
  have sign : c ≠ '-' ∧ c ≠ '+' := ⟨hex_apart first rfl,hex_apart first rfl⟩
  have value (after : List Char) (clean : skipHexMark (c::after) = c::after) : strtoul16 (c::after) =
      if 2^64 ≤ hexDigits 0 (c::after) then BitVec.allOnes 64 else BitVec.ofNat 64 (hexDigits 0 (c::after)) := by
    unfold strtoul16
    simp only [kept after]
    split
    next same => exact absurd (List.cons.inj same).1 sign.1
    next same => exact absurd (List.cons.inj same).1 sign.2
    next => simp only [clean,Bool.false_eq_true,if_false]
  rw [List.cons_append] at read ⊢
  rw [value _ bare,value _ (skipHexMark_hex digits),read]

/-- A hexadecimal field, with blanks before it and something else behind it. -/
theorem strtoul16_field {gap : List Char} (spaces : ∀ c ∈ gap, isSpace c = true) (width : Nat) (value : BitVec 64) {d : Char}
    (stops : hexDigit d = none) (mark : d ≠ 'x' ∧ d ≠ 'X') (rest : List Char) :
    strtoul16 (gap ++ (hexText width value.toNat ++ d::rest)) = value := by
  rw [strtoul16_spaces spaces,strtoul16_stop (hexText_some _ _) (hexText_hex _ _) stops mark,strtoul16_hexText]

theorem splitOn_lines {d : Char} {lines : List (List Char)} (plain : ∀ line ∈ lines, d ∉ line) :
    ((lines.map (· ++ [d])).flatten).splitOn d = lines ++ [[]] := by
  induction lines with
  | nil => rfl
  | cons line lines ih =>
    obtain ⟨first,others⟩ := List.forall_mem_cons.mp plain
    rw [List.map_cons,List.flatten_cons,List.append_assoc,List.singleton_append,List.splitOn_append_cons_self_of_not_mem first,
      ih others,List.cons_append]

end Unixprog.CStrings
