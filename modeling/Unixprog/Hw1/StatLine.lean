import Unixprog.Hw1.Rows
import Unixprog.Library.Tokens

/-! The command name that readInfo takes from `/proc/<pid>/stat`. -/
namespace Unixprog.Hw1
open CStrings Aborts

/-- The line as the kernel writes it; `rest` is what follows the name and a blank. -/
def statLine (pid : Nat) (comm rest : Str) : Str :=
  Nat.toDigits 10 pid ++ ' ':: '('::(comm ++ [')']) ++ ' '::rest

/-- What `%s` reads behind the opening parenthesis. -/
def scanned (comm : Str) : Str := (comm ++ [')']).takeWhile fun c => !isSpace c

theorem scanStat_statLine {pid : Nat} (small : pid < 2^31) (comm rest : Str) :
    scanStat (statLine pid comm rest) = some ((pid : Int),'('::scanned comm) := by
  have value := atoi_numeral (numeral_toDigits pid) small
  have digits := toDigits_dec pid
  obtain ⟨c,tail,spelt⟩ := List.exists_cons_of_ne_nil (Nat.toDigits_ne_nil (n := pid) (b := 10))
  obtain ⟨plain,minus,plus⟩ := digit_plain c (digits c (by simp [spelt]))
  let behind := ('('::(comm ++ [')'])) ++ ' '::rest
  have body : (statLine pid comm rest).dropWhile isSpace = Nat.toDigits 10 pid ++ ' '::behind := by
    have line : statLine pid comm rest = Nat.toDigits 10 pid ++ ' '::behind := by simp [statLine,behind]
    rw [line,spelt,List.cons_append,List.dropWhile_cons_of_neg (by simp [plain])]
  have sign : (Nat.toDigits 10 pid ++ ' '::behind).takeWhile (fun c => c = '-' || c = '+') = [] := by
    rw [spelt,List.cons_append,List.takeWhile_cons_of_neg (by simp [minus,plus])]
  have number : (Nat.toDigits 10 pid ++ ' '::behind).takeWhile (fun c => (decDigit c).isSome) =
      Nat.toDigits 10 pid := by
    rw [List.takeWhile_append_of_pos digits,List.takeWhile_cons_of_neg (by decide),List.append_nil]
  have left : (Nat.toDigits 10 pid ++ ' '::behind).dropWhile (fun c => (decDigit c).isSome) = ' '::behind := by
    rw [List.dropWhile_append_of_pos digits,List.dropWhile_cons_of_neg (by decide)]
  have word : ((' '::behind).dropWhile isSpace).takeWhile (fun c => !isSpace c) = '('::scanned comm := by
    have first : behind.dropWhile isSpace = behind := List.dropWhile_cons_of_neg (by decide)
    rw [List.dropWhile_cons_of_pos (by decide),first,takeWhile_stop (by decide),
      List.takeWhile_cons_of_pos (by decide),scanned]
  simp only [scanStat,body,sign,List.take_nil,List.length_nil,List.drop_zero,number,left,word,List.nil_append,value]
  rw [if_neg (by simp [Nat.toDigits_ne_nil])]

theorem scanned_whole {comm : Str} (plain : ∀ c ∈ comm, isSpace c = false) : scanned comm = comm ++ [')'] := by
  apply List.takeWhile_eq_self_iff.mpr
  intro c member
  rcases List.mem_append.mp member with inside | last
  · simp [plain c inside]
  · rw [List.mem_singleton.mp last]
    decide

theorem scanned_cut {comm : Str} (blank : ¬ ∀ c ∈ comm, isSpace c = false) :
    (scanned comm).dropLast.length < comm.length := by
  have cut : scanned comm = comm.takeWhile fun c => !isSpace c := by
    rw [scanned,List.takeWhile_append,if_neg]
    intro whole
    apply blank
    have same := (List.takeWhile_prefix fun c => !isSpace c).eq_of_length whole
    simpa using List.takeWhile_eq_self_iff.mp same
  have some : comm ≠ [] := by
    rintro rfl
    exact blank (by simp)
  have bound := (List.takeWhile_prefix (fun c => !isSpace c) (l := comm)).length_le
  have positive := List.length_pos_iff.mpr some
  rw [List.length_dropLast,cut]
  omega

theorem readStat_run {pid : Int} {text name : Str} (scans : scanStat text = some (pid,'('::name))
    (fits : name.length+1 < MAX_NAME_SIZE) (s : Scan) : (readStat text).run s =
      if name = [] then .stopped .undefined {s with p := {s.p with pid := pid}}
      else .returned () {s with p := {s.p with pid := pid,procName := name.dropLast}} := by
  simp only [readStat,scans,bind_run,setInfo_run,andThen_returned]
  rw [within_fits (by simpa using fits),andThen_returned]
  simp only [List.drop_succ_cons,List.drop_zero]
  split <;> rfl

/-- From the line of a process, whatever follows its name, the record gets the pid and
the name, and every row of the process shows them. -/
structure Decodes (pid : Nat) (comm : Str) : Prop where
  sets : ∀ rest s, ∃ t, (readStat (statLine pid comm rest)).run s = .returned () t ∧
    t.p.pid = pid ∧ t.p.procName = comm
  seen : ∀ w o (x : Process) rest s, x.statFile = some (statLine pid comm rest) →
    Hands (fun p => p.pid = pid ∧ p.procName = comm) s ((readInfo w o x).run s).state

theorem decodes_plain {pid : Nat} {comm : Str} (small : pid < 2^31) (short : comm.length ≤ 15)
    (plain : ∀ c ∈ comm, isSpace c = false) : Decodes pid comm := by
  have reads (rest : Str) (s : Scan) : (readStat (statLine pid comm rest)).run s =
      .returned () {s with p := {s.p with pid := pid,procName := comm}} := by
    have scans := scanned_whole plain ▸ scanStat_statLine small comm rest
    rw [readStat_run scans (by simp [MAX_NAME_SIZE]; omega),if_neg (by simp)]
    simp
  constructor
  case sets => exact fun rest s => ⟨_,reads rest s,rfl,rfl⟩
  case seen =>
    intro w o x rest s file
    have fixed : Fixed fun p => p.pid = pid ∧ p.procName = comm := fun p _ _ _ _ holds => holds
    have line : Leaves w o (fun p => p.pid = pid ∧ p.procName = comm) (fun _ => True)
        (readStat (statLine pid comm rest)) fun _ p => p.pid = pid ∧ p.procName = comm := by
      constructor
      · intro s _
        rw [reads]
        exact rows_refl _ _ _ _
      · intro s _ t _ ok
        rw [reads] at ok
        cases ok
        exact ⟨rfl,rfl⟩
    unfold readInfo
    cases x.stat with
    | none => exact hands_refl _ s
    | some buffer =>
      simp only [file]
      have all := leaves_bind (leaves_user buffer.uid) fun _ => leaves_bind line fun _ => leaves_rows fixed x
      exact (all.ends s trivial).hands

theorem stat_decodes_iff (pid : Nat) (comm : Str) (small : pid < 2^31) (short : comm.length ≤ 15) :
    Decodes pid comm ↔ ∀ c ∈ comm, isSpace c = false := by
  constructor
  · intro decodes
    by_contra blank
    obtain ⟨t,ok,-,named⟩ := decodes.sets [] zeroes
    have cut := scanned_cut blank
    rw [readStat_run (scanStat_statLine small comm [])] at ok
    · split at ok
      next => cases ok
      next =>
        cases ok
        have same := congrArg List.length named
        simp only at same
        omega
    · rw [List.length_dropLast] at cut
      simp only [MAX_NAME_SIZE]
      omega
  · exact decodes_plain small short

theorem parenthesised_decodes : Decodes 4194303 "a)(b".toList := by
  apply (stat_decodes_iff 4194303 "a)(b".toList (by omega) (by decide)).mpr
  intro c member
  have letters : c ∈ ['a',')','(','b'] := member
  simp only [List.mem_cons,List.not_mem_nil,or_false] at letters
  rcases letters with rfl | rfl | rfl | rfl <;> rfl

/-- Of the name "a b" nothing is left. -/
theorem spaced_lost : ¬ Decodes 7 "a b".toList := by
  intro decodes
  obtain ⟨t,ok,-,named⟩ := decodes.sets "S 1".toList zeroes
  have run : (readStat (statLine 7 "a b".toList "S 1".toList)).run zeroes =
      .returned () {zeroes with p := {zeroes.p with pid := 7,procName := []}} := by rfl
  rw [run] at ok
  cases ok
  cases named

end Unixprog.Hw1
