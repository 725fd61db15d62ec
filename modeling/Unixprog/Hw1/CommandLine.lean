import Unixprog.Library.Getopt
import Unixprog.Hw1.Filters

/-! The command lines of hw1: which it takes, and what it makes of them. -/
namespace Unixprog.Hw1
open CStrings Aborts Getopt

def optstring : Str := ['c',':','t',':','f',':']

/-- What getopt delivers in so many calls, and how many words it leaves. After an option
that it refuses it is not called again. -/
def deliver : Nat → Getopt.Scan → Option (List Opt × Nat)
  | 0,_ => none
  | rounds+1,s => match getopt optstring s with
    | (.finished,s) => some ([],s.argv.length-s.optind)
    | (.letter 'c' (some optarg),s) => (deliver rounds s).map fun found => (.c optarg::found.1,found.2)
    | (.letter 't' (some optarg),s) => (deliver rounds s).map fun found => (.t optarg::found.1,found.2)
    | (.letter 'f' (some optarg),s) => (deliver rounds s).map fun found => (.f optarg::found.1,found.2)
    | _ => some ([.other],0)

/-- main with the words of its command line; `none` if the calls of getopt do not end in time. -/
def started (w : World) (argv : List Str) : Option (Op Unit) :=
  (deliver (argv.length+1) (Getopt.Scan.start argv)).map fun found => main w found.1 found.2

def option : Char × Str → Opt
  | ('c',optarg) => .c optarg
  | ('t',optarg) => .t optarg
  | ('f',optarg) => .f optarg
  | _ => .other

theorem takes_known {c : Char} {argument : Bool} (known : takes optstring c = some argument) :
    argument = true ∧ (c = 'c' ∨ c = 't' ∨ c = 'f') := by
  unfold takes at known
  split_ifs at known with separator
  have colon : ':' ≠ c := fun same => separator (.inl same.symm)
  simp only [optstring,listed,if_neg colon] at known
  split_ifs at known with one two three
  · cases known
    exact ⟨rfl,.inl one.symm⟩
  · cases known
    exact ⟨rfl,.inr (.inl two.symm)⟩
  · cases known
    exact ⟨rfl,.inr (.inr three.symm)⟩

/-- What is delivered of words, some words before them having been skipped: the options
that they spell, or something that main does not take. -/
inductive Delivers (skipped words : List Str) : Option (List Opt × Nat) → Prop
  | spelled (given : List (Char × Str)) (first : skipped = []) (spells : Spells optstring given words) :
      Delivers skipped words (some (given.map option,0))
  | refused (opts : List Opt) (operands : Nat) (bad : Opt.other ∈ opts ∨ 0 < operands)
      (unspelled : skipped = [] → ∀ given, ¬ Spells optstring given words) : Delivers skipped words (some (opts,operands))

theorem delivers_option {skipped words more : List Str} {c : Char} {optarg : Str}
    (spells : ∀ given, Spells optstring given words ↔ ∃ others, given = (c,optarg)::others ∧ Spells optstring others more)
    {found : Option (List Opt × Nat)} (later : Delivers skipped more found) :
    Delivers skipped words (found.map fun found => (option (c,optarg)::found.1,found.2)) := by
  cases later with
  | spelled given first later => exact .spelled ((c,optarg)::given) first ((spells _).mpr ⟨given,rfl,later⟩)
  | refused opts operands bad unspelled =>
    refine .refused _ _ (bad.imp (List.mem_cons_of_mem _) id) fun first given spelling => ?_
    obtain ⟨others,_,later⟩ := (spells given).mp spelling
    exact unspelled first others later

theorem deliver_letter {rounds : Nat} {s t : Getopt.Scan} {c : Char} {optarg : Str} (letter : c = 'c' ∨ c = 't' ∨ c = 'f')
    (found : getopt optstring s = (.letter c (some optarg),t)) :
    deliver (rounds+1) s = (deliver rounds t).map fun found => (option (c,optarg)::found.1,found.2) := by
  rw [deliver,found]
  obtain rfl | rfl | rfl := letter <;> rfl

theorem deliver_refused {rounds : Nat} {s : Getopt.Scan} (refused : (∃ c, (getopt optstring s).1 = .unknown c) ∨
    ∃ c, (getopt optstring s).1 = .missing c) : deliver (rounds+1) s = some ([.other],0) := by
  rw [deliver]
  cases gets : getopt optstring s with
  | mk found t =>
    rw [gets] at refused
    cases found with
    | unknown c => rfl
    | missing c => rfl
    | _ => simp at refused

theorem delivers_refused {skipped words : List Str} {found : Option (List Opt × Nat)} (same : found = some ([.other],0))
    (unspelled : ∀ given, ¬ Spells optstring given words) : Delivers skipped words found := by
  rw [same]
  exact .refused _ _ (.inl (List.mem_singleton_self _)) fun _ => unspelled

theorem delivers_dashes (rounds : Nat) (scanned skipped more : List Str) :
    Delivers skipped (['-','-']::more) (deliver (rounds+1) ⟨scanned,skipped,['-','-']::more,[]⟩) := by
  have ends : deliver (rounds+1) ⟨scanned,skipped,['-','-']::more,[]⟩ = some ([],skipped.length+more.length) := by
    have passes : getopt optstring ⟨scanned,skipped,['-','-']::more,[]⟩ =
        (.finished,⟨scanned ++ [['-','-']],skipped,more,[]⟩) := rfl
    rw [deliver,passes]
    simp only [Getopt.Scan.argv,Getopt.Scan.optind,List.length_append,List.length_singleton]
    exact congrArg (fun n => some ([],n)) (by omega)
  have reserved : takes optstring '-' = none := by decide
  rw [ends]
  by_cases last : skipped = [] ∧ more = []
  · obtain ⟨rfl,rfl⟩ := last
    exact .spelled [] rfl .dashes
  · refine .refused _ _ (.inr ?_) fun first given spells => last ⟨first,((spells_dashes reserved).mp spells).2⟩
    by_contra none
    obtain ⟨one,two⟩ : skipped.length = 0 ∧ more.length = 0 := by omega
    exact last ⟨List.length_eq_zero_iff.mp one,List.length_eq_zero_iff.mp two⟩

theorem deliver_delivers (rounds : Nat) (scanned skipped words : List Str) (enough : words.length < rounds) :
    Delivers skipped words (deliver rounds ⟨scanned,skipped,words,[]⟩) := by
  induction size : words.length using Nat.strong_induction_on generalizing rounds scanned skipped words with
  | h size ih =>
  obtain ⟨rounds,rfl⟩ := Nat.exists_eq_add_of_le' (Nat.one_le_of_lt enough)
  cases words with
  | nil =>
    have ends : deliver (rounds+1) ⟨scanned,skipped,[],[]⟩ = some ([],skipped.length) := by
      have passes : getopt optstring ⟨scanned,skipped,[],[]⟩ = (.finished,⟨scanned,skipped,[],[]⟩) := rfl
      rw [deliver,passes]
      simp [Getopt.Scan.argv,Getopt.Scan.optind]
    rw [ends]
    cases skipped with
    | nil => exact .spelled [] rfl .nil
    | cons word skipped => exact .refused _ _ (.inr (Nat.succ_pos _)) fun first => by cases first
  | cons word more =>
    rw [List.length_cons] at size enough
    cases plain : nonoption word with
    | true =>
      have skips : deliver (rounds+1) ⟨scanned,skipped,word::more,[]⟩ =
          deliver (rounds+1) ⟨scanned,skipped ++ [word],more,[]⟩ := by rw [deliver,deliver,getopt_skips plain]
      have later := ih more.length (by omega) (rounds+1) scanned (skipped ++ [word]) more (by omega) rfl
      rw [skips]
      generalize deliver (rounds+1) ⟨scanned,skipped ++ [word],more,[]⟩ = found at later ⊢
      cases later with
      | spelled given first spells => simp at first
      | refused opts operands bad unspelled => exact .refused opts operands bad fun _ given => spells_nonoption plain
    | false =>
      obtain ⟨c,nextchar,rfl⟩ := option_spelled plain
      by_cases dashes : c = '-' ∧ nextchar = []
      · obtain ⟨rfl,rfl⟩ := dashes
        exact delivers_dashes rounds scanned skipped more
      have arrives : getopt optstring ⟨scanned,skipped,('-'::c::nextchar)::more,[]⟩ =
          letter optstring scanned skipped ('-'::c::nextchar) more c nextchar := getopt_option dashes
      cases known : takes optstring c with
      | none =>
        refine delivers_refused (deliver_refused (.inl ⟨c,?_⟩)) fun given => spells_unknown dashes known
        rw [arrives,letter_unknown known]
      | some argument =>
        obtain ⟨rfl,letter⟩ := takes_known known
        have apart : c ≠ '-' := by
          obtain rfl | rfl | rfl := letter <;> decide
        by_cases joined : nextchar ≠ []
        · rw [letter_joined known joined] at arrives
          rw [deliver_letter letter arrives]
          exact delivers_option (fun given => spells_joined known joined)
            (ih more.length (by omega) rounds _ _ more (by omega) rfl)
        · obtain rfl := not_not.mp joined
          cases more with
          | nil =>
            refine delivers_refused (deliver_refused (.inr ⟨c,?_⟩)) fun given => spells_missing apart
            rw [arrives,letter_missing known]
          | cons optarg more =>
            rw [List.length_cons] at size enough
            rw [letter_apart known] at arrives
            rw [deliver_letter letter arrives]
            exact delivers_option (fun given => spells_apart known apart)
              (ih more.length (by omega) rounds _ _ more (by omega) rfl)

/-! What main makes of the options. -/

/-- The argument of the last option with that letter. -/
def lastGiven (c : Char) (given : List (Char × Str)) : Option Str := (given.filter (·.1 = c)).getLast?.map Prod.snd

def filters (given : List (Char × Str)) : Options := ⟨lastGiven 'c' given,lastGiven 't' given,lastGiven 'f' given⟩

theorem usage_run {α : Type} (s : Scan) :
    (usage : Op α).run s = .stopped (.exited 1) {s with complaints := s.complaints ++ [.usage]} := rfl

theorem parseOptions_other {opts : List Opt} (bad : Opt.other ∈ opts) (o : Options) : parseOptions o opts = usage := by
  induction opts generalizing o with
  | nil => exact absurd bad List.not_mem_nil
  | cons opt rest ih =>
    cases opt with
    | other => rfl
    | _ => exact ih (by simpa using bad) _

theorem main_refuses (w : World) {opts : List Opt} {operands : Nat} (bad : Opt.other ∈ opts ∨ 0 < operands) (s : Scan) :
    (main w opts operands).run s = (usage : Op Unit).run s := by
  by_cases known : Opt.other ∈ opts
  · rw [main,bind_run,parseOptions_other known,usage_run]
    rfl
  · have words := bad.resolve_left known
    rw [main,bind_run,parseOptions_known known,pure_run,andThen_returned]
    simp only [bind_run,words,if_true,usage_run,andThen_stopped]

theorem option_known {optarg : Str} {c : Char} (letter : c = 'c' ∨ c = 't' ∨ c = 'f') : option (c,optarg) ≠ .other := by
  obtain rfl | rfl | rfl := letter <;> simp [option]

theorem spells_known {given : List (Char × Str)} {words : List Str} (spells : Spells optstring given words) :
    ∀ x ∈ given, x.1 = 'c' ∨ x.1 = 't' ∨ x.1 = 'f' := by
  induction spells with
  | nil => exact fun x member => absurd member List.not_mem_nil
  | dashes => exact fun x member => absurd member List.not_mem_nil
  | joined known some later ih => exact List.forall_mem_cons.mpr ⟨(takes_known known).2,ih⟩
  | apart known letter later ih => exact List.forall_mem_cons.mpr ⟨(takes_known known).2,ih⟩

theorem filtersOf_given {given : List (Char × Str)} (known : ∀ x ∈ given, x.1 = 'c' ∨ x.1 = 't' ∨ x.1 = 'f') :
    filtersOf (given.map option) = filters given := by
  induction given using List.reverseRecOn with
  | nil => rfl
  | append_singleton given x ih =>
    obtain ⟨before,last⟩ := List.forall_mem_append.mp known
    have letter := List.forall_mem_singleton.mp last
    obtain ⟨c,optarg⟩ := x
    have step : filtersOf ((given ++ [(c,optarg)]).map option) = (option (c,optarg)).set (filtersOf (given.map option)) := by
      rw [List.map_append,filtersOf,List.foldl_append]
      rfl
    rw [step,ih before]
    obtain rfl | rfl | rfl := letter <;> simp [option,Opt.set,filters,lastGiven]

/-- hw1 takes exactly the command lines that spell its options, in any order, each as one word
or as two. The last option of each letter counts. Any other command line gets the usage. -/
theorem command_line (w : World) (argv : List Str) :
    (∃ given p, Spells optstring given (argv.drop 1) ∧ started w argv = some p ∧
      ∀ s, p.run s = (listing w (filters given)).run s) ∨
    (∀ given, ¬ Spells optstring given (argv.drop 1)) ∧ ∃ p, started w argv = some p ∧ ∀ s, p.run s = (usage : Op Unit).run s := by
  have delivers := deliver_delivers (argv.length+1) (argv.take 1) [] (argv.drop 1) (by rw [List.length_drop]; omega)
  rw [started,Getopt.Scan.start]
  generalize deliver (argv.length+1) ⟨argv.take 1,[],argv.drop 1,[]⟩ = found at delivers ⊢
  cases delivers with
  | spelled given first spells =>
    refine .inl ⟨given,_,spells,rfl,fun s => ?_⟩
    have letters := spells_known spells
    have known : Opt.other ∉ given.map option := by
      intro member
      obtain ⟨x,inside,same⟩ := List.mem_map.mp member
      exact option_known (letters x inside) same
    have parsed : parseOptions ⟨none,none,none⟩ (given.map option) = pure (filters given) := by
      rw [← filtersOf_given letters]
      exact parseOptions_known known _
    change (main w (given.map option) 0).run s = _
    rw [main,bind_run,parsed,pure_run,andThen_returned]
    rfl
  | refused opts operands bad unspelled =>
    exact .inr ⟨unspelled rfl,_,rfl,main_refuses w bad⟩

end Unixprog.Hw1
