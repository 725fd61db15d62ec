import Unixprog.Hw2.Main

/-! What hw2 makes of a command line. -/
namespace Unixprog.Hw2
open Plays Getopt

/-! Command lines of the form `hw2 [-p so] [-o file] [--] cmd args..`. -/

inductive Given
  | p (so : Str)
  | o (file : Str)

def Given.words : Given → List Str
  | .p so => [['-','p'],so]
  | .o file => [['-','o'],file]

structure CommandLine where
  name : Str
  given : List Given
  separated : Bool
  cmd : Str
  args : List Str

def CommandLine.operands (l : CommandLine) : List Str :=
  (if l.separated then [['-','-']] else []) ++ l.cmd::l.args

def CommandLine.argv (l : CommandLine) : List Str := l.name::(l.given.flatMap Given.words ++ l.operands)

/-- What the given options ask for. -/
def settings : List Given → BitVec 32 → Op (BitVec 32)
  | [],fd => pure fd
  | .p so::given,fd => do
    set_p so
    settings given fd
  | .o file::given,_ => do
    let fd ← set_o file
    settings given fd

def setup (given : List Given) : Op (BitVec 32) := do
  let _ ← ask (.setenv "LD_PRELOAD".toList shared_lib)
  let _ ← ask (.setenv "LOGGER".toList "2".toList)
  settings given (-1)

/-- The programs a play executes, each with its argument vector. -/
def executed (play : List (Sigma Query.Answer)) : List (Option Str × List Str) := play.filterMap fun x =>
  match x.1 with
  | .execvp file argv => some (file,argv)
  | _ => none

/-- Every play keeps to command_buf, sets what the given options ask for and nothing else, forks,
and in the child executes the command with its arguments. -/
def HandsOver (l : CommandLine) : Prop :=
  ∀ patience play ending, Played ((main patience l.argv).run ()) play ending →
    ending ≠ .stopped .outside ∧ ∃ before fd pid rest, play = before ++ ⟨.fork,pid⟩::rest ∧
      Played ((setup l.given).run ()) before (.done fd ()) ∧
      executed play = if pid = 0 then [(some l.cmd,l.cmd::l.args)] else []

theorem always_takes (c : Char) : takes optstring c ≠ some false := by
  unfold takes
  split_ifs with separator
  · simp
  · have other : ':' ≠ c := fun same => separator (.inl same.symm)
    simp only [optstring,listed,if_neg other]
    split_ifs <;> simp

theorem getopt_given (g : Given) (scanned tail : List Str) :
    getopt optstring ⟨scanned,[],g.words ++ tail,[]⟩ =
      (match g with
        | .p so => .letter 'p' (some so)
        | .o file => .letter 'o' (some file),⟨scanned ++ g.words,[],tail,[]⟩) := by
  cases g <;> rfl

theorem options_given (rounds : Nat) (given : List Given) (scanned tail : List Str) (fd : BitVec 32) :
    options (rounds+given.length) ⟨scanned,[],given.flatMap Given.words ++ tail,[]⟩ fd =
      settings given fd >>= fun fd => options rounds ⟨scanned ++ given.flatMap Given.words,[],tail,[]⟩ fd := by
  induction given generalizing scanned fd with
  | nil => rw [List.flatMap_nil,List.append_nil]; rfl
  | cons g given ih =>
    rw [List.flatMap_cons,List.append_assoc,List.length_cons,← Nat.add_assoc,options,getopt_given,← List.append_assoc]
    cases g with
    | p so => exact (congrArg (set_p so >>= ·) (funext fun _ => ih _ fd)).trans (then_assoc _ _ _).symm
    | o file => exact (congrArg (set_o file >>= ·) (funext fun fd => ih _ fd)).trans (then_assoc _ _ _).symm

theorem options_separated (rounds : Nat) (scanned words : List Str) (fd : BitVec 32) :
    options (rounds+1) ⟨scanned,[],['-','-']::words,[]⟩ fd = pure (⟨scanned ++ [['-','-']],[],words,[]⟩,fd) := rfl

theorem options_plain (rounds : Nat) {words : List Str} (plain : ∀ word ∈ words, nonoption word = true)
    (scanned : List Str) (fd : BitVec 32) :
    options (rounds+1) ⟨scanned,[],words,[]⟩ fd = pure (⟨scanned,words,[],[]⟩,fd) := by
  have passes : getopt optstring ⟨scanned,[],words,[]⟩ = (.finished,⟨scanned,words,[],[]⟩) := advance_plain plain
  rw [options,passes]

/-! The copy into command_buf. -/

theorem copy_fits (words : List Str) (opt : Nat) (command_buf : Vector (Option Str) 32)
    (fits : opt+words.length ≤ 32) : ∃ filled, copy words opt command_buf = pure filled ∧
      filled.toList = command_buf.toList.take opt ++ words.map some ++ command_buf.toList.drop (opt+words.length) := by
  induction words generalizing opt command_buf with
  | nil => exact ⟨command_buf,rfl,by simp⟩
  | cons word words ih =>
    rw [List.length_cons] at fits
    have inside : opt < 32 := by omega
    obtain ⟨filled,copies,holds⟩ := ih (opt+1) (command_buf.set opt (some word)) (by omega)
    refine ⟨filled,by rw [copy,dif_pos inside,copies],?_⟩
    have size : opt < (command_buf.toList.set opt (some word)).length := by
      rw [List.length_set,Vector.length_toList]
      exact inside
    rw [holds,Vector.toList_set,List.take_succ_eq_append_getElem size,List.take_set_of_le le_rfl,List.getElem_set_self,
      List.drop_set_of_lt (by omega),List.length_cons,List.map_cons,Nat.add_right_comm opt 1,Nat.add_assoc opt _ 1]
    simp only [List.append_assoc,List.cons_append,List.nil_append]

theorem copy_overflows (words : List Str) (opt : Nat) (command_buf : Vector (Option Str) 32)
    (long : 32 < opt+words.length) (start : opt ≤ 32) : copy words opt command_buf = stop .outside := by
  induction words generalizing opt command_buf with
  | nil => exact absurd long (by simpa using start)
  | cons word words ih =>
    rw [copy]
    split
    next inside => exact ih (opt+1) _ (by simp only [List.length_cons] at long; omega) inside
    next => rfl

theorem terminated_null (words : List Str) (rest : List (Option Str)) :
    terminated (words.map some ++ none::rest) = some words := by
  induction words with
  | nil => rfl
  | cons word words ih =>
    rw [List.map_cons,List.cons_append,terminated,ih]
    rfl

theorem terminated_full (words : List Str) : terminated (words.map some) = none := by
  induction words with
  | nil => rfl
  | cons word words ih =>
    rw [List.map_cons,terminated,ih]
    rfl

section Performed
variable {patience : Nat} {s : Scan} {fd : BitVec 32}

theorem perform_copies : perform patience s fd =
    copy s.operands 0 (.replicate 32 none) >>= fun command_buf => launch patience fd s.operands[0]? command_buf.toList := by
  have first : s.argv[s.optind]? = s.operands[0]? := by rw [← argv_operands,List.getElem?_drop,Nat.add_zero]
  rw [perform,argv_operands,first]

/-- main passes on the words and the nulls left behind them. -/
theorem perform_copied (patience : Nat) (fd : BitVec 32) (within : s.operands.length ≤ 32) :
    perform patience s fd = launch patience fd s.operands[0]?
      (s.operands.map some ++ List.replicate (32-s.operands.length) none) := by
  obtain ⟨filled,copies,holds⟩ := copy_fits s.operands 0 (.replicate 32 none) (by omega)
  have left : filled.toList = s.operands.map some ++ List.replicate (32-s.operands.length) none := by
    rw [holds,Vector.toList_replicate,List.take_zero,List.nil_append,Nat.zero_add,List.drop_replicate]
  rw [perform_copies,copies,← left]
  rfl

theorem perform_fits (patience : Nat) (fd : BitVec 32) (fits : s.operands.length < 32) :
    ∃ command_buf, terminated command_buf = some s.operands ∧
      perform patience s fd = launch patience fd s.operands[0]? command_buf := by
  refine ⟨_,?_,perform_copied patience fd (by omega)⟩
  obtain ⟨room,size⟩ : ∃ room, 32-s.operands.length = room+1 := ⟨31-s.operands.length,by omega⟩
  rw [size,List.replicate_succ]
  exact terminated_null _ _

theorem perform_full (patience : Nat) (fd : BitVec 32) (full : s.operands.length = 32) :
    ∃ command_buf, terminated command_buf = none ∧
      perform patience s fd = launch patience fd s.operands[0]? command_buf := by
  refine ⟨_,?_,perform_copied patience fd (by omega)⟩
  rw [full,Nat.sub_self,List.replicate_zero,List.append_nil]
  exact terminated_full _

theorem perform_overflows (long : 32 < s.operands.length) : perform patience s fd = stop .outside := by
  rw [perform_copies,copy_overflows _ _ _ (by omega) (by omega)]
  rfl

end Performed

/-! What is executed. -/

/-- Neither fork nor execvp. -/
def Plain : Query → Prop
  | .fork => False
  | .execvp _ _ => False
  | _ => True

theorem executed_plain {play : List (Sigma Query.Answer)} (plain : ∀ x ∈ play, Plain x.1) : executed play = [] := by
  refine List.filterMap_eq_nil_iff.mpr fun x member => ?_
  obtain ⟨q,a⟩ := x
  have own := plain _ member
  cases q <;> first | rfl | exact absurd own id

theorem executed_append (before after : List (Sigma Query.Answer)) :
    executed (before ++ after) = executed before ++ executed after := List.filterMap_append

theorem wait_plays {rounds : Nat} {pid : BitVec 32} {play : List (Sigma Query.Answer)} {ending : Ending Unit Stop Unit}
    (goes : Played ((wait rounds pid).run ()) play ending) :
    ending ≠ .stopped .outside ∧ ∀ x ∈ play, Plain x.1 := by
  induction rounds generalizing play with
  | zero =>
    obtain ⟨rfl,rfl⟩ := plays_ret.mp goes
    exact ⟨by simp,fun x member => absurd member List.not_mem_nil⟩
  | succ rounds ih =>
    obtain ⟨result,rest,rfl,answered⟩ := plays_query.mp goes
    rw [List.forall_mem_cons,and_iff_right (show Plain (.waitpid pid) from trivial)]
    split at answered
    next =>
      obtain ⟨rfl,rfl⟩ := plays_ret.mp answered
      exact ⟨by simp,fun x member => absurd member List.not_mem_nil⟩
    next => exact ih answered

theorem parent_plays {patience : Nat} {fd pid : BitVec 32} {play : List (Sigma Query.Answer)}
    {ending : Ending Unit Stop Int} (goes : Played ((parent patience fd pid).run ()) play ending) :
    ending ≠ .stopped .outside ∧ executed play = [] := by
  obtain ⟨waiting,middle,last,rfl,waits,waited⟩ := plays_then.mp goes
  obtain ⟨inside,plain⟩ := wait_plays waits
  rw [executed_append,executed_plain plain,List.nil_append]
  cases middle with
  | stopped why =>
    obtain ⟨rfl,rfl⟩ := plays_ret.mp waited
    exact ⟨by simpa using inside,rfl⟩
  | done value after =>
    simp only [andThen_done] at waited
    split at waited
    next =>
      obtain ⟨closed,rest,rfl,closing⟩ := plays_query.mp waited
      obtain ⟨rfl,rfl⟩ := plays_ret.mp closing
      exact ⟨by simp,rfl⟩
    next =>
      obtain ⟨rfl,rfl⟩ := plays_ret.mp waited
      exact ⟨by simp,rfl⟩

theorem child_plays {file : Option Str} {command_buf : List (Option Str)} {play : List (Sigma Query.Answer)}
    {ending : Ending Unit Stop Int} (goes : Played ((child file command_buf).run ()) play ending) :
    (terminated command_buf ≠ none → ending ≠ .stopped .outside) ∧
      executed play = ((terminated command_buf).map (Prod.mk file)).toList := by
  cases ends : terminated command_buf with
  | none =>
    rw [child,ends] at goes
    obtain ⟨rfl,rfl⟩ := plays_ret.mp goes
    exact ⟨fun never => absurd rfl never,rfl⟩
  | some argv =>
    rw [child,ends] at goes
    obtain ⟨result,rest,rfl,answered⟩ := plays_query.mp goes
    cases result with
    | none =>
      obtain ⟨rfl,rfl⟩ := plays_ret.mp answered
      exact ⟨by simp,rfl⟩
    | some result =>
      dsimp only at answered
      split at answered
      next =>
        obtain ⟨printed,rest,rfl,printing⟩ := plays_query.mp answered
        obtain ⟨rfl,rfl⟩ := plays_ret.mp printing
        exact ⟨by simp,rfl⟩
      next =>
        obtain ⟨rfl,rfl⟩ := plays_ret.mp answered
        exact ⟨by simp,rfl⟩

/-- Every play forks, executes what is in command_buf in the child alone, and keeps to command_buf
if a null pointer is in it. -/
theorem launch_plays {patience : Nat} {fd : BitVec 32} {file : Option Str} {command_buf : List (Option Str)}
    {play : List (Sigma Query.Answer)} {ending : Ending Unit Stop Int}
    (goes : Played ((launch patience fd file command_buf).run ()) play ending) :
    (terminated command_buf ≠ none → ending ≠ .stopped .outside) ∧ ∃ pid rest, play = ⟨.fork,pid⟩::rest ∧
      executed play = if pid = 0 then ((terminated command_buf).map (Prod.mk file)).toList else [] := by
  obtain ⟨pid,rest,rfl,forked⟩ := plays_query.mp goes
  suffices ended : (terminated command_buf ≠ none → ending ≠ .stopped .outside) ∧
      executed rest = if (pid : BitVec 32) = 0 then ((terminated command_buf).map (Prod.mk file)).toList else [] from
    ⟨ended.1,pid,rest,rfl,ended.2⟩
  by_cases fails : (pid : BitVec 32).toInt < 0
  · have apart : (pid : BitVec 32) ≠ 0 := by
      intro child
      rw [child] at fails
      exact absurd fails (by decide)
    rw [if_pos fails] at forked
    obtain ⟨printed,rest,rfl,printing⟩ := plays_query.mp forked
    obtain ⟨rfl,rfl⟩ := plays_ret.mp printing
    exact ⟨by simp,(if_neg apart).symm⟩
  rw [if_neg fails] at forked
  by_cases born : (pid : BitVec 32) = 0
  · rw [if_pos born] at forked ⊢
    exact child_plays forked
  · rw [if_neg born] at forked ⊢
    obtain ⟨inside,nothing⟩ := parent_plays forked
    exact ⟨fun _ => inside,nothing⟩

theorem launch_unterminated {patience : Nat} {fd : BitVec 32} {file : Option Str} {command_buf : List (Option Str)}
    (endless : terminated command_buf = none) :
    Played ((launch patience fd file command_buf).run ()) [⟨.fork,(0 : BitVec 32)⟩] (.stopped .outside) := by
  refine plays_query.mpr ⟨(0 : BitVec 32),[],rfl,?_⟩
  have born : ¬ (0 : BitVec 32).toInt < 0 := by decide
  rw [if_neg born,if_pos rfl,child,endless]
  exact plays_ret.mpr ⟨rfl,rfl⟩

/-! The loop over the options. -/

theorem tame_ask {α : Type} (q : Query) {next : q.Answer → Op α} (plain : Plain q)
    (all : ∀ a, Tame Plain (fun _ => True) (fun _ => True) (next a)) :
    Tame Plain (fun _ => True) (fun _ => True) (ask q >>= next) :=
  tame_query q next plain (fun a _ => all a) fun _ never => absurd trivial never

theorem settings_tame (given : List Given) (fd : BitVec 32) :
    Tame Plain (fun _ => True) (fun _ => True) (settings given fd) := by
  induction given generalizing fd with
  | nil => exact tame_pure _ trivial
  | cons g given ih =>
    cases g with
    | p so => exact tame_bind (tame_ask _ trivial fun _ => tame_pure _ trivial) fun _ _ => ih fd
    | o file =>
      exact tame_bind (tame_ask _ trivial fun _ => tame_ask _ trivial fun _ => tame_pure _ trivial) fun fd _ => ih fd

theorem setup_tame (given : List Given) : Tame Plain (fun _ => True) (fun _ => True) (setup given) :=
  tame_ask _ trivial fun _ => tame_ask _ trivial fun _ => settings_tame given _

/-- A system where every call works, and the process is the child. -/
def obliging : (q : Query) → q.Answer
  | .setenv _ _ => (0 : BitVec 32)
  | .open _ _ _ => (3 : BitVec 32)
  | .fork => (0 : BitVec 32)
  | .execvp _ _ => none
  | .waitpid _ => (0 : BitVec 32)
  | .close _ => (0 : BitVec 32)
  | .fprintf _ => (0 : BitVec 32)

theorem setup_plays (given : List Given) : ∃ before fd, Played ((setup given).run ()) before (.done fd ()) := by
  have goes := play_played obliging ((setup given).run ())
  have ends := ((setup_tame given).ends _ _ _ goes).mpr fun _ _ => trivial
  cases ending : (((setup given).run ()).play obliging).2 with
  | done fd after => exact ⟨_,fd,ending ▸ goes⟩
  | stopped why =>
    rw [ending] at ends
    cases ends

/-- A round goes on with fewer words. -/
theorem round_fewer {s : Scan} (fresh : s.nextchar = []) (known : ∀ c, (getopt optstring s).1 ≠ .unknown c) :
    (getopt optstring s).2.nextchar = [] ∧ (getopt optstring s).2.operands.length ≤ s.operands.length ∧
      ((∃ word ∈ s.rest, nonoption word = false) ∨ (getopt optstring s).1 ≠ .finished →
        (getopt optstring s).2.operands.length < s.operands.length) := by
  have whole := getopt_whole always_takes fresh known
  refine ⟨whole,?_⟩
  by_cases plain : ∀ word ∈ s.rest, nonoption word = true
  · rw [getopt_plain fresh plain]
    refine ⟨(congrArg List.length (List.append_nil s.operands)).le,?_⟩
    rintro (⟨word,member,option⟩ | more)
    · rw [plain word member] at option
      cases option
    · exact absurd rfl more
  · have option : ∃ word ∈ s.rest, nonoption word = false := by simpa using plain
    have fewer := getopt_fewer fresh whole option
    exact ⟨fewer.le,fun _ => fewer⟩

theorem usage_plays {α : Type} {play : List (Sigma Query.Answer)} {ending : Ending Unit Stop α}
    (goes : Played ((usage : Op α).run ()) play ending) : (∀ x ∈ play, Plain x.1) ∧ ending = .stopped (.exited 1) := by
  obtain ⟨_,_,rfl,goes₁⟩ := plays_query.mp goes
  obtain ⟨_,_,rfl,goes₂⟩ := plays_query.mp goes₁
  obtain ⟨_,_,rfl,goes₃⟩ := plays_query.mp goes₂
  obtain ⟨_,_,rfl,goes₄⟩ := plays_query.mp goes₃
  obtain ⟨rfl,rfl⟩ := plays_ret.mp goes₄
  simp [Plain]

/-- The loop keeps to the options' own calls, has rounds enough if there are more than words,
and loses a word if an option is among them. -/
theorem options_plays {rounds : Nat} {s : Scan} {fd : BitVec 32} (fresh : s.nextchar = [])
    {play : List (Sigma Query.Answer)} {ending : Ending Unit Stop (Scan × BitVec 32)}
    (goes : Played ((options rounds s fd).run ()) play ending) :
    (∀ x ∈ play, Plain x.1) ∧ (s.operands.length < rounds → ending ≠ .stopped .unfinished) ∧
      ∀ value, ending.result = some value → value.1.operands.length ≤ s.operands.length ∧
        ((∃ word ∈ s.rest, nonoption word = false) → value.1.operands.length < s.operands.length) := by
  induction rounds generalizing s fd play with
  | zero =>
    obtain ⟨rfl,rfl⟩ := plays_ret.mp goes
    refine ⟨fun x member => absurd member List.not_mem_nil,fun enough => absurd enough (Nat.not_lt_zero _),?_⟩
    intro value same
    cases same
  | succ rounds ih =>
    have round := round_fewer fresh
    have further {s' : Scan} {fd' : BitVec 32} {rest : List (Sigma Query.Answer)} (fresh' : s'.nextchar = [])
        (fewer : s'.operands.length < s.operands.length) (goes' : Played ((options rounds s' fd').run ()) rest ending) :
        (∀ x ∈ rest, Plain x.1) ∧ (s.operands.length < rounds+1 → ending ≠ .stopped .unfinished) ∧
          ∀ value, ending.result = some value → value.1.operands.length ≤ s.operands.length ∧
            ((∃ word ∈ s.rest, nonoption word = false) → value.1.operands.length < s.operands.length) := by
      obtain ⟨plain,enough,left⟩ := ih fresh' goes'
      refine ⟨plain,fun room => enough (by omega),fun value same => ?_⟩
      obtain ⟨le,_⟩ := left value same
      exact ⟨by omega,fun _ => by omega⟩
    rw [options] at goes
    split at goes
    next s' stops =>
      rw [stops] at round
      obtain ⟨_,fewer,lost⟩ := round fun c => by simp
      obtain ⟨rfl,rfl⟩ := plays_ret.mp goes
      refine ⟨fun x member => absurd member List.not_mem_nil,by simp,?_⟩
      rintro _ ⟨⟩
      exact ⟨fewer,fun option => lost (.inl option)⟩
    next optarg s' found =>
      rw [found] at round
      obtain ⟨fresh',_,fewer⟩ := round fun c => by simp
      obtain ⟨_,rest,rfl,goes'⟩ := plays_ask.mp goes
      obtain ⟨plain,others⟩ := further fresh' (fewer (.inr (by simp))) goes'
      exact ⟨List.forall_mem_cons.mpr ⟨trivial,plain⟩,others⟩
    next optarg s' found =>
      rw [found] at round
      obtain ⟨fresh',_,fewer⟩ := round fun c => by simp
      obtain ⟨_,_,rfl,opened⟩ := plays_ask.mp goes
      obtain ⟨_,rest,rfl,goes'⟩ := plays_ask.mp opened
      obtain ⟨plain,others⟩ := further fresh' (fewer (.inr (by simp))) goes'
      exact ⟨List.forall_mem_cons.mpr ⟨trivial,List.forall_mem_cons.mpr ⟨trivial,plain⟩⟩,others⟩
    next =>
      obtain ⟨plain,rfl⟩ := usage_plays goes
      refine ⟨plain,by simp,?_⟩
      rintro _ ⟨⟩

/-- main has rounds enough for its options. -/
theorem options_finish {argv : List Str} (named : 0 < argv.length) (fd : BitVec 32) (play : List (Sigma Query.Answer)) :
    ¬ Played ((options argv.length (.start argv) fd).run ()) play (.stopped .unfinished) := by
  intro goes
  have fewer : (Scan.start argv).operands.length < argv.length := by
    rw [start_operands,List.length_drop]
    omega
  exact (options_plays rfl goes).2.1 fewer rfl

/-! The command handed over. -/

theorem main_given (l : CommandLine) : ∃ rounds, l.operands.length < rounds ∧ ∀ patience,
    main patience l.argv = setup l.given >>= fun fd =>
      options rounds ⟨l.name::l.given.flatMap Given.words,[],l.operands,[]⟩ fd >>= fun v => perform patience v.1 v.2 := by
  have words : (l.given.flatMap Given.words).length = 2*l.given.length := by
    induction l.given with
    | nil => rfl
    | cons g given ih =>
      have two : g.words.length = 2 := by cases g <;> rfl
      rw [List.flatMap_cons,List.length_append,ih,two,List.length_cons]
      omega
  have some : 1 ≤ l.operands.length := by
    rw [CommandLine.operands,List.length_append,List.length_cons]
    omega
  have size : l.argv.length = 1+2*l.given.length+l.operands.length := by
    rw [CommandLine.argv,List.length_cons,List.length_append,words]
    omega
  refine ⟨l.argv.length-l.given.length,by omega,fun patience => ?_⟩
  have enough : ¬ l.argv.length < 2 := by omega
  have loop (fd : BitVec 32) : options l.argv.length (.start l.argv) fd = settings l.given fd >>= fun fd =>
      options (l.argv.length-l.given.length) ⟨l.name::l.given.flatMap Given.words,[],l.operands,[]⟩ fd := by
    have rounds : l.argv.length = l.argv.length-l.given.length+l.given.length := by omega
    conv_lhs => rw [rounds]
    exact options_given _ l.given [l.name] l.operands fd
  rw [main,if_neg enough]
  simp only [loop,setup,then_assoc]

theorem perform_executes {patience : Nat} {s : Scan} {fd : BitVec 32} {play : List (Sigma Query.Answer)}
    {ending : Ending Unit Stop Int} (goes : Played ((perform patience s fd).run ()) play ending) :
    ∀ x ∈ executed play, x.2 = s.operands := by
  obtain fits | full | long := Nat.lt_trichotomy s.operands.length 32
  · obtain ⟨command_buf,ends,launches⟩ := perform_fits patience fd fits
    rw [launches] at goes
    obtain ⟨_,pid,rest,rfl,runs⟩ := launch_plays goes
    rw [runs,ends]
    split_ifs <;> simp
  · obtain ⟨command_buf,endless,launches⟩ := perform_full patience fd full
    rw [launches] at goes
    obtain ⟨_,pid,rest,rfl,runs⟩ := launch_plays goes
    rw [runs,endless]
    split_ifs <;> simp
  · rw [perform_overflows long] at goes
    obtain ⟨rfl,_⟩ := plays_ret.mp goes
    exact fun x member => absurd member List.not_mem_nil

/-- The command is found if no word of it can be taken for an option. -/
theorem main_apart {l : CommandLine} (apart : l.separated = true ∨ ∀ word ∈ l.cmd::l.args, nonoption word = true) :
    ∃ s : Scan, s.operands = l.cmd::l.args ∧
      ∀ patience, main patience l.argv = setup l.given >>= fun fd => perform patience s fd := by
  obtain ⟨rounds,enough,begins⟩ := main_given l
  obtain ⟨rounds,rfl⟩ : ∃ more, rounds = more+1 := ⟨rounds-1,by omega⟩
  simp only [begins]
  cases separated : l.separated with
  | true =>
    have operands : l.operands = ['-','-']::l.cmd::l.args := by rw [CommandLine.operands,separated]; rfl
    rw [operands]
    exact ⟨_,rfl,fun patience => by simp only [options_separated]; rfl⟩
  | false =>
    have operands : l.operands = l.cmd::l.args := by rw [CommandLine.operands,separated]; rfl
    have plain := apart.resolve_left (by rw [separated]; decide)
    rw [operands]
    exact ⟨_,List.append_nil _,fun patience => by simp only [options_plain rounds plain]; rfl⟩

theorem hands_over {l : CommandLine} (apart : l.separated = true ∨ ∀ word ∈ l.cmd::l.args, nonoption word = true)
    (fits : (l.cmd::l.args).length < 32) : HandsOver l := by
  obtain ⟨s,operands,begins⟩ := main_apart apart
  intro patience play ending goes
  rw [begins] at goes
  obtain ⟨before,middle,after,rfl,sets,performs⟩ := plays_then.mp goes
  have done := ((setup_tame l.given).ends _ _ _ sets).mpr fun _ _ => trivial
  cases middle with
  | stopped why => cases done
  | done fd _ =>
    obtain ⟨command_buf,ends,launches⟩ := perform_fits patience fd (operands.symm ▸ fits : s.operands.length < 32)
    rw [andThen_done,launches] at performs
    obtain ⟨inside,pid,rest,rfl,runs⟩ := launch_plays performs
    refine ⟨inside (by rw [ends]; simp),before,fd,pid,rest,rfl,sets,?_⟩
    rw [executed_append,executed_plain ((setup_tame l.given).asks _ _ _ sets),List.nil_append,runs,ends,operands]
    rfl

theorem overflows {l : CommandLine} (apart : l.separated = true ∨ ∀ word ∈ l.cmd::l.args, nonoption word = true)
    (long : 32 ≤ (l.cmd::l.args).length) : ¬ HandsOver l := by
  obtain ⟨s,operands,begins⟩ := main_apart apart
  obtain ⟨before,fd,sets⟩ := setup_plays l.given
  suffices escapes : ∃ play, Played ((perform 0 s fd).run ()) play (.stopped .outside) by
    obtain ⟨play,performs⟩ := escapes
    intro whole
    have goes : Played ((main 0 l.argv).run ()) (before ++ play) (.stopped .outside) := by
      rw [begins]
      exact plays_then.mpr ⟨before,_,play,rfl,sets,performs⟩
    exact (whole 0 _ _ goes).1 rfl
  rw [← operands] at long
  obtain full | longer := Nat.eq_or_lt_of_le long
  · obtain ⟨command_buf,endless,launches⟩ := perform_full 0 fd full.symm
    rw [launches]
    exact ⟨_,launch_unterminated endless⟩
  · rw [perform_overflows longer]
    exact ⟨[],plays_ret.mpr ⟨rfl,rfl⟩⟩

/-- A word taken for an option is lost to the command, or ends hw2. -/
theorem mistakes {l : CommandLine} (bare : l.separated = false) (option : ∃ word ∈ l.cmd::l.args, nonoption word = false) :
    ¬ HandsOver l := by
  intro whole
  obtain ⟨play,ending,goes,answers⟩ : ∃ play ending, Played ((main 0 l.argv).run ()) play ending ∧
      ∀ x ∈ play, x = ⟨x.1,obliging x.1⟩ := ⟨_,_,play_played obliging _,play_answers obliging _⟩
  obtain ⟨_,before,fd,pid,rest,same,_,runs⟩ := whole 0 _ _ goes
  have born : pid = (0 : BitVec 32) := by
    simpa [obliging] using answers ⟨.fork,pid⟩ (by rw [same]; simp)
  rw [if_pos born] at runs
  obtain ⟨rounds,_,begins⟩ := main_given l
  have operands : l.operands = l.cmd::l.args := by rw [CommandLine.operands,bare]; rfl
  rw [begins,operands] at goes
  obtain ⟨first,middle,others,rfl,sets,goes⟩ := plays_then.mp goes
  rw [executed_append,executed_plain ((setup_tame l.given).asks _ _ _ sets),List.nil_append] at runs
  cases middle with
  | stopped why =>
    obtain ⟨rfl,_⟩ := plays_ret.mp goes
    cases runs
  | done fd' _ =>
    obtain ⟨given,chosen,last,rfl,chooses,performs⟩ := plays_then.mp goes
    obtain ⟨plain,_,left⟩ := options_plays rfl chooses
    rw [executed_append,executed_plain plain,List.nil_append] at runs
    cases chosen with
    | stopped why =>
      obtain ⟨rfl,_⟩ := plays_ret.mp performs
      cases runs
    | done v _ =>
      have fewer := (left v rfl).2 option
      have vector := perform_executes performs (some l.cmd,l.cmd::l.args) (by rw [runs]; simp)
      rw [← vector] at fewer
      exact absurd fewer (lt_irrefl _)

/-- hw2 runs the command as it was given exactly if it fits in command_buf with a null pointer behind
it, and no word of it that looks like an option stands there without "--" before it. -/
theorem hands_over_iff (l : CommandLine) : HandsOver l ↔
    l.args.length < 31 ∧ (l.separated = true ∨ ∀ word ∈ l.cmd::l.args, nonoption word = true) := by
  by_cases apart : l.separated = true ∨ ∀ word ∈ l.cmd::l.args, nonoption word = true
  · rw [and_iff_left apart]
    constructor
    · intro whole
      by_contra long
      exact overflows apart (by rw [List.length_cons]; omega) whole
    · intro short
      exact hands_over apart (by rw [List.length_cons]; omega)
  · obtain ⟨bare,some⟩ := not_or.mp apart
    have option : ∃ word ∈ l.cmd::l.args, nonoption word = false := by
      simpa only [not_forall,exists_prop,Bool.not_eq_true] using some
    exact iff_of_false (mistakes (by simpa using bare) option) fun both => apart both.2

/-- `hw2 ls -l` prints the usage; 32 words after "--" fill command_buf. -/
theorem ls_rejected : ¬ HandsOver ⟨['h','w','2'],[],false,['l','s'],[['-','l']]⟩ ∧
    ¬ HandsOver ⟨['h','w','2'],[],true,['l','s'],.replicate 31 ['a']⟩ :=
  ⟨mistakes rfl ⟨['-','l'],by simp,rfl⟩,overflows (.inl rfl) (by simp)⟩

end Unixprog.Hw2
