import Mathlib.Data.List.TakeWhile

/-! GNU getopt. Options may stand anywhere among the words of a command line; the
words that are none end up behind them, in their order. -/
namespace Unixprog.Getopt

/-- How far getopt is: the words before optind in the order it leaves them in, the words
it skipped, and those still to come. While `nextchar` is not empty it stands in the first of these. -/
structure Scan where
  scanned : List (List Char)
  skipped : List (List Char)
  rest : List (List Char)
  nextchar : List Char

def Scan.start (argv : List (List Char)) : Scan := ⟨argv.take 1,[],argv.drop 1,[]⟩

def Scan.argv (s : Scan) : List (List Char) := s.scanned ++ (s.skipped ++ s.rest)

def Scan.optind (s : Scan) : Nat := s.scanned.length

/-- What a call returns. For `unknown` and `missing` it returns '?', for `finished` -1. -/
inductive Found
  | letter (c : Char) (optarg : Option (List Char))
  | unknown (c : Char)
  | missing (c : Char)
  | finished

def nonoption : List Char → Bool
  | '-'::_::_ => false
  | _ => true

/-- Whether an option takes an argument, `none` if there is no such option. -/
def listed (c : Char) : List Char → Option Bool
  | [] => none
  | d::optstring => if d = c then some (optstring.head? = some ':') else listed c optstring

def takes (optstring : List Char) (c : Char) : Option Bool :=
  if c = ':' ∨ c = ';' then none else listed c optstring

/-- Past a letter of `word`: at the letters after it, or at the next word. -/
def past (scanned skipped : List (List Char)) (word : List Char) (more : List (List Char)) (nextchar : List Char) :
    Scan :=
  if nextchar = [] then ⟨scanned ++ [word],skipped,more,[]⟩ else ⟨scanned,skipped,word::more,nextchar⟩

/-- The letter `c` of the option `word`, with the word's letters after it. -/
def letter (optstring : List Char) (scanned skipped : List (List Char)) (word : List Char)
    (more : List (List Char)) (c : Char) (nextchar : List Char) : Found × Scan :=
  match takes optstring c with
  | none => (.unknown c,past scanned skipped word more nextchar)
  | some false => (.letter c none,past scanned skipped word more nextchar)
  | some true =>
    if nextchar ≠ [] then (.letter c (some nextchar),⟨scanned ++ [word],skipped,more,[]⟩)
    else match more with
      | [] => (.missing c,⟨scanned ++ [word],skipped,[],[]⟩)
      | optarg::more => (.letter c (some optarg),⟨scanned ++ [word,optarg],skipped,more,[]⟩)

/-- The next word that is an option; "--" ends the options. -/
def advance (optstring : List Char) (scanned : List (List Char)) :
    List (List Char) → List (List Char) → Found × Scan
  | skipped,[] => (.finished,⟨scanned,skipped,[],[]⟩)
  | skipped,word::more => match word with
    | '-'::c::nextchar =>
      if c = '-' ∧ nextchar = [] then (.finished,⟨scanned ++ [word],skipped,more,[]⟩)
      else letter optstring scanned skipped word more c nextchar
    | _ => advance optstring scanned (skipped ++ [word]) more

def getopt (optstring : List Char) (s : Scan) : Found × Scan :=
  match s.nextchar,s.rest with
  | c::nextchar,word::more => letter optstring s.scanned s.skipped word more c nextchar
  | _,_ => advance optstring s.scanned s.skipped s.rest

section Words
variable {optstring : List Char} {scanned skipped : List (List Char)}

theorem advance_skips {word : List Char} (plain : nonoption word = true) (more : List (List Char)) :
    advance optstring scanned skipped (word::more) = advance optstring scanned (skipped ++ [word]) more := by
  rw [advance]
  rintro c nextchar rfl
  cases plain

theorem advance_option (c : Char) (nextchar : List Char) (more : List (List Char)) :
    advance optstring scanned skipped (('-'::c::nextchar)::more) =
      if c = '-' ∧ nextchar = [] then (.finished,⟨scanned ++ ['-'::c::nextchar],skipped,more,[]⟩)
      else letter optstring scanned skipped ('-'::c::nextchar) more c nextchar := rfl

theorem advance_plain {rest : List (List Char)} (plain : ∀ word ∈ rest, nonoption word = true) :
    advance optstring scanned skipped rest = (.finished,⟨scanned,skipped ++ rest,[],[]⟩) := by
  induction rest generalizing skipped with
  | nil => simp [advance]
  | cons word more ih =>
    obtain ⟨first,others⟩ := List.forall_mem_cons.mp plain
    rw [advance_skips first,ih others,List.append_assoc,List.singleton_append]

theorem option_spelled {word : List Char} (option : nonoption word = false) : ∃ c nextchar, word = '-'::c::nextchar := by
  unfold nonoption at option
  split at option
  next c nextchar => exact ⟨c,nextchar,rfl⟩
  next => cases option

/-- Where getopt comes to next: to the end, if no word is an option, or else to the first that is. -/
theorem advance_cases (optstring : List Char) (scanned skipped rest : List (List Char)) :
    (∀ word ∈ rest, nonoption word = true) ∨
    ∃ passed c nextchar more, rest = passed ++ ('-'::c::nextchar)::more ∧
      advance optstring scanned skipped rest =
        advance optstring scanned (skipped ++ passed) (('-'::c::nextchar)::more) := by
  induction rest generalizing skipped with
  | nil => exact .inl fun word member => absurd member List.not_mem_nil
  | cons word more ih =>
    cases plain : nonoption word with
    | false =>
      obtain ⟨c,nextchar,rfl⟩ := option_spelled plain
      exact .inr ⟨[],c,nextchar,more,rfl,by rw [List.append_nil]⟩
    | true =>
      obtain all | ⟨passed,c,nextchar,more',rfl,goes⟩ := ih (skipped ++ [word])
      · exact .inl (List.forall_mem_cons.mpr ⟨plain,all⟩)
      · refine .inr ⟨word::passed,c,nextchar,more',rfl,?_⟩
        rw [advance_skips plain,goes,List.append_assoc,List.singleton_append]

end Words

/-- The words that are no options, as far as getopt knows. -/
def Scan.operands (s : Scan) : List (List Char) := s.skipped ++ s.rest

@[simp] theorem start_operands (argv : List (List Char)) : (Scan.start argv).operands = argv.drop 1 := rfl

theorem argv_operands (s : Scan) : s.argv.drop s.optind = s.operands := by
  rw [Scan.argv,Scan.optind,List.drop_left,Scan.operands]

theorem past_fewer {scanned skipped more : List (List Char)} {word nextchar : List Char}
    (whole : (past scanned skipped word more nextchar).nextchar = []) :
    (past scanned skipped word more nextchar).operands.length = skipped.length+more.length := by
  unfold past at whole ⊢
  split_ifs at whole ⊢ with last
  · exact List.length_append
  · exact absurd whole last

theorem letter_fewer {optstring : List Char} {scanned skipped more : List (List Char)} {word nextchar : List Char}
    {c : Char} (whole : (letter optstring scanned skipped word more c nextchar).2.nextchar = []) :
    (letter optstring scanned skipped word more c nextchar).2.operands.length ≤ skipped.length+more.length := by
  unfold letter at whole ⊢
  split at whole
  next => exact (past_fewer whole).le
  next => exact (past_fewer whole).le
  next =>
    by_cases attached : nextchar = []
    · cases more <;> simp [attached,Scan.operands]
    · simp [attached,Scan.operands]

theorem getopt_fresh {optstring : List Char} {s : Scan} (fresh : s.nextchar = []) :
    getopt optstring s = advance optstring s.scanned s.skipped s.rest := by rw [getopt,fresh]

/-- If all options take an argument, a call is done with its word unless it does not know the option. -/
theorem getopt_whole {optstring : List Char} (always : ∀ c, takes optstring c ≠ some false) {s : Scan}
    (fresh : s.nextchar = []) (known : ∀ c, (getopt optstring s).1 ≠ .unknown c) :
    (getopt optstring s).2.nextchar = [] := by
  rw [getopt_fresh fresh] at known ⊢
  obtain plain | ⟨passed,c,nextchar,more,split,arrives⟩ := advance_cases optstring s.scanned s.skipped s.rest
  · rw [advance_plain plain]
  · rw [arrives,advance_option] at known ⊢
    split_ifs at known ⊢
    · rfl
    · unfold letter at known ⊢
      cases kind : takes optstring c with
      | none => exact absurd (by rw [kind]) (known c)
      | some argument =>
        cases argument with
        | false => exact absurd kind (always c)
        | true =>
          dsimp only
          split_ifs
          · rfl
          · cases more <;> rfl

theorem getopt_plain {optstring : List Char} {s : Scan} (fresh : s.nextchar = [])
    (plain : ∀ word ∈ s.rest, nonoption word = true) :
    getopt optstring s = (.finished,⟨s.scanned,s.operands,[],[]⟩) := by
  rw [getopt_fresh fresh,advance_plain plain,Scan.operands]

/-- A call that is done with its word leaves fewer operands, unless no option was left. -/
theorem getopt_fewer {optstring : List Char} {s : Scan} (fresh : s.nextchar = [])
    (whole : (getopt optstring s).2.nextchar = []) (option : ∃ word ∈ s.rest, nonoption word = false) :
    (getopt optstring s).2.operands.length < s.operands.length := by
  rw [getopt_fresh fresh] at whole ⊢
  obtain plain | ⟨passed,c,nextchar,more,split,arrives⟩ := advance_cases optstring s.scanned s.skipped s.rest
  · obtain ⟨word,member,found⟩ := option
    rw [plain word member] at found
    cases found
  · rw [arrives,advance_option] at whole ⊢
    have fewer : s.operands.length = (s.skipped ++ passed).length+more.length+1 := by
      simp only [Scan.operands,split,List.length_append,List.length_cons]
      omega
    rw [fewer,Nat.lt_succ_iff]
    split_ifs at whole ⊢
    · exact List.length_append.le
    · exact letter_fewer whole

/-! How options are spelled. -/

/-- Words that spell options with their arguments, in one word or in two each; "--" may end them. -/
inductive Spells (optstring : List Char) : List (Char × List Char) → List (List Char) → Prop
  | nil : Spells optstring [] []
  | dashes : Spells optstring [] [['-','-']]
  | joined {c : Char} {optarg : List Char} {given : List (Char × List Char)} {words : List (List Char)}
      (known : takes optstring c = some true) (some : optarg ≠ []) (later : Spells optstring given words) :
      Spells optstring ((c,optarg)::given) (('-'::c::optarg)::words)
  | apart {c : Char} {optarg : List Char} {given : List (Char × List Char)} {words : List (List Char)}
      (known : takes optstring c = some true) (letter : c ≠ '-') (later : Spells optstring given words) :
      Spells optstring ((c,optarg)::given) (['-',c]::optarg::words)

section Spelling
variable {optstring : List Char} {scanned skipped more : List (List Char)} {c : Char} {nextchar : List Char}

theorem getopt_skips {word : List Char} (plain : nonoption word = true) :
    getopt optstring ⟨scanned,skipped,word::more,[]⟩ = getopt optstring ⟨scanned,skipped ++ [word],more,[]⟩ := by
  rw [getopt_fresh rfl,getopt_fresh rfl]
  exact advance_skips plain more

theorem getopt_option (word : ¬ (c = '-' ∧ nextchar = [])) :
    getopt optstring ⟨scanned,skipped,('-'::c::nextchar)::more,[]⟩ =
      letter optstring scanned skipped ('-'::c::nextchar) more c nextchar := by
  rw [getopt_fresh rfl,advance_option,if_neg word]

theorem letter_unknown (unknown : takes optstring c = none) :
    (letter optstring scanned skipped ('-'::c::nextchar) more c nextchar).1 = .unknown c := by
  unfold letter
  rw [unknown]

theorem letter_joined (known : takes optstring c = some true) (some : nextchar ≠ []) :
    letter optstring scanned skipped ('-'::c::nextchar) more c nextchar =
      (.letter c nextchar,⟨scanned ++ ['-'::c::nextchar],skipped,more,[]⟩) := by
  unfold letter
  rw [known]
  exact if_pos some

theorem letter_apart {optarg : List Char} (known : takes optstring c = some true) :
    letter optstring scanned skipped ['-',c] (optarg::more) c [] =
      (.letter c optarg,⟨scanned ++ [['-',c],optarg],skipped,more,[]⟩) := by
  unfold letter
  rw [known]
  rfl

theorem letter_missing (known : takes optstring c = some true) :
    (letter optstring scanned skipped ['-',c] [] c []).1 = .missing c := by
  unfold letter
  rw [known]
  rfl

theorem spells_nonoption {given : List (Char × List Char)} {word : List Char} (plain : nonoption word = true) :
    ¬ Spells optstring given (word::more) := by
  intro spells
  cases spells with
  | dashes => cases plain
  | joined known some later => cases plain
  | apart known letter later => cases plain

theorem spells_joined {given : List (Char × List Char)} (known : takes optstring c = some true) (some : nextchar ≠ []) :
    Spells optstring given (('-'::c::nextchar)::more) ↔
      ∃ others, given = (c,nextchar)::others ∧ Spells optstring others more := by
  constructor
  · intro spells
    cases spells with
    | dashes => exact absurd rfl some
    | joined _ _ later => exact ⟨_,rfl,later⟩
    | apart _ _ later => exact absurd rfl some
  · rintro ⟨others,rfl,later⟩
    exact .joined known some later

theorem spells_apart {given : List (Char × List Char)} {optarg : List Char} (known : takes optstring c = some true)
    (letter : c ≠ '-') : Spells optstring given (['-',c]::optarg::more) ↔
      ∃ others, given = (c,optarg)::others ∧ Spells optstring others more := by
  constructor
  · intro spells
    cases spells with
    | joined _ some later => exact absurd rfl some
    | apart _ _ later => exact ⟨_,rfl,later⟩
  · rintro ⟨others,rfl,later⟩
    exact .apart known letter later

theorem spells_missing {given : List (Char × List Char)} (letter : c ≠ '-') : ¬ Spells optstring given [['-',c]] := by
  intro spells
  cases spells with
  | dashes => exact letter rfl
  | joined _ some later => exact some rfl

theorem spells_unknown {given : List (Char × List Char)} (word : ¬ (c = '-' ∧ nextchar = []))
    (unknown : takes optstring c = none) : ¬ Spells optstring given (('-'::c::nextchar)::more) := by
  intro spells
  cases spells with
  | dashes => exact word ⟨rfl,rfl⟩
  | joined known _ _ => simp [unknown] at known
  | apart known _ _ => simp [unknown] at known

theorem spells_dashes {given : List (Char × List Char)} (reserved : takes optstring '-' = none) :
    Spells optstring given (['-','-']::more) ↔ given = [] ∧ more = [] := by
  constructor
  · intro spells
    cases spells with
    | dashes => exact ⟨rfl,rfl⟩
    | joined known _ _ => simp [reserved] at known
    | apart known _ _ => simp [reserved] at known
  · rintro ⟨rfl,rfl⟩
    exact .dashes

end Spelling

end Unixprog.Getopt
