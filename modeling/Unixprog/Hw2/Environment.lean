import Unixprog.Library.Histories
import Unixprog.Library.Tokens
import Unixprog.Hw2.Handover
import Unixprog.Logger.Binding

/-! The environment that hw2 hands over, and what it does around fork, for any command line. -/
namespace Unixprog.Hw2
open Plays Getopt CStrings

abbrev Past := History Query.Answer

def setting (name : Str) : Sigma Query.Answer → Option Str
  | ⟨.setenv other value,result⟩ => if other = name ∧ result = (0 : BitVec 32) then some value else none
  | _ => none

/-- What getenv gives after a history, of the variables that it sets. -/
def getenv (history : Past) (name : Str) : Option Str := (history.filterMap (setting name)).getLast?

/-- Every setenv succeeded. -/
def Works (history : Past) : Prop := ∀ name value, ∀ result : BitVec 32, ⟨.setenv name value,result⟩ ∈ history → result = 0

def answered : Sigma Query.Answer → Option (BitVec 32)
  | ⟨.open _ _ _,fd⟩ => some fd
  | _ => none

def lastOpened (history : Past) : Option (BitVec 32) := (history.filterMap answered).getLast?

/-- The descriptor that LOGGER is to name: what the last open gave, or standard error. -/
def descriptor (history : Past) : BitVec 32 := (lastOpened history).getD 2

def Early : Query → Prop
  | .setenv _ _ => True
  | .open _ _ _ => True
  | .fprintf _ => True
  | _ => False

/-- So far main has only set variables, opened files and complained. -/
def Unforked (history : Past) : Prop := ∀ x ∈ history, Early x.1

/-- What main may do after a history. It forks once, with LOGGER set to the descriptor.
The child executes the command at once; the parent waits for this child until waitpid
fails, and closes what it opened last. -/
def Allowed (history : Past) : Query → Prop
  | .setenv name value => Unforked history ∧
      (name = "LD_PRELOAD".toList ∨ name = "LOGGER".toList ∧ value = decimal (descriptor history))
  | .open _ flags mode => Unforked history ∧ flags = O_WRONLY ||| O_CREAT ||| O_TRUNC ∧ mode = S_IRWXU
  | .fork => Unforked history
  | .execvp _ _ => (∃ past, history = past ++ [⟨.fork,(0 : BitVec 32)⟩]) ∧
      (Works history → (getenv history "LOGGER".toList).map atoi = some (descriptor history).toInt)
  | .waitpid pid => 0 < pid.toInt ∧ ⟨.fork,pid⟩ ∈ history ∧
      ∀ other, ∀ result : BitVec 32, ⟨.waitpid other,result⟩ ∈ history → result ≠ -1
  | .close fd => 0 < fd.toInt ∧ lastOpened history = some fd ∧
      ∃ past pid, history = past ++ [⟨.waitpid pid,(-1 : BitVec 32)⟩]
  | .fprintf _ => True

abbrev Proper {α : Type} (pre : Past → Prop) (p : Op α) (post : α → Past → Prop) : Prop :=
  Minds Allowed (fun history _ => pre history) p fun value history _ => post value history

structure Setting (fd : BitVec 32) (history : Past) : Prop where
  unforked : Unforked history
  fd : fd = (lastOpened history).getD (-1)
  logger : Works history → getenv history "LOGGER".toList = some (decimal (descriptor history))

theorem setting_setenv (name other value : Str) (result : BitVec 32) :
    setting name ⟨.setenv other value,result⟩ = if other = name ∧ result = 0 then some value else none := rfl

theorem getenv_last (history : Past) (x : Sigma Query.Answer) (name : Str) :
    getenv (history ++ [x]) name = (setting name x).or (getenv history name) := by
  unfold getenv
  cases set : setting name x with
  | none => simp [set]
  | some value => simp [set]

theorem lastOpened_last (history : Past) (x : Sigma Query.Answer) :
    lastOpened (history ++ [x]) = (answered x).or (lastOpened history) := by
  unfold lastOpened
  cases opened : answered x with
  | none => simp [opened]
  | some fd => simp [opened]

theorem lastOpened_open (history : Past) (path : Str) (fd : BitVec 32) :
    lastOpened (history ++ [⟨.open path (O_WRONLY ||| O_CREAT ||| O_TRUNC) S_IRWXU,fd⟩]) = some fd :=
  lastOpened_last history _

theorem works_past {history : Past} {x : Sigma Query.Answer} (works : Works (history ++ [x])) : Works history :=
  fun name value result member => works name value result (List.mem_append_left _ member)

theorem works_last {history : Past} {name value : Str} {result : BitVec 32}
    (works : Works (history ++ [⟨.setenv name value,result⟩])) : result = 0 :=
  works name value result (List.mem_append_right _ (List.mem_singleton_self _))

theorem unforked_last {history : Past} {q : Query} {a : q.Answer} (unforked : Unforked history) (early : Early q) :
    Unforked (history ++ [⟨q,a⟩]) := List.forall_mem_append.mpr ⟨unforked,List.forall_mem_singleton.mpr early⟩

theorem setting_preload {fd : BitVec 32} {history : Past} (value : Str) (result : BitVec 32)
    (setting : Setting fd history) : Setting fd (history ++ [⟨.setenv "LD_PRELOAD".toList value,result⟩]) := by
  have set : Hw2.setting "LOGGER".toList ⟨.setenv "LD_PRELOAD".toList value,result⟩ = none := by
    rw [setting_setenv,if_neg fun ⟨same,_⟩ => absurd same (by decide)]
  have same : lastOpened (history ++ [⟨.setenv "LD_PRELOAD".toList value,result⟩]) = lastOpened history := by
    rw [lastOpened_last]
    rfl
  refine ⟨unforked_last setting.unforked trivial,by rw [same,setting.fd],fun works => ?_⟩
  rw [getenv_last,set,Option.none_or,descriptor,same]
  exact setting.logger (works_past works)

theorem setting_logger {history : Past} (unforked : Unforked history) {value : Str}
    (told : value = decimal (descriptor history)) (result : BitVec 32) :
    Setting ((lastOpened history).getD (-1)) (history ++ [⟨.setenv "LOGGER".toList value,result⟩]) := by
  have same : lastOpened (history ++ [⟨.setenv "LOGGER".toList value,result⟩]) = lastOpened history := by
    rw [lastOpened_last]
    rfl
  refine ⟨unforked_last unforked trivial,by rw [same],fun works => ?_⟩
  rw [getenv_last,setting_setenv,if_pos ⟨rfl,works_last works⟩,Option.some_or,descriptor,same,told,descriptor]

theorem decimal_atoi (fd : BitVec 32) : atoi (decimal fd) = fd.toInt :=
  atoi_toString (by have := fd.le_toInt; simpa using this) (by have := fd.toInt_lt; simpa using this)

theorem minds_usage {α : Type} {allowed : Past → Query → Prop} {pre : Past → Unit → Prop} {post : α → Past → Unit → Prop}
    (prints : ∀ history text, allowed history (.fprintf text)) : Minds allowed pre (usage : Op α) post := by
  have asks (q : Query) {next : q.Answer → Op α} {pre : Past → Unit → Prop} (text : ∃ text, q = .fprintf text)
      (rest : ∀ a, Minds allowed (fun _ _ => True) (next a) post) : Minds allowed pre (ask q >>= next) post := by
    obtain ⟨text,rfl⟩ := text
    exact minds_query _ (fun history _ _ => prints history text) fun a =>
      (rest a).weaken (fun _ _ _ => trivial) fun _ _ _ holds => holds
  unfold usage
  exact asks _ ⟨_,rfl⟩ fun _ => asks _ ⟨_,rfl⟩ fun _ => asks _ ⟨_,rfl⟩ fun _ => asks _ ⟨_,rfl⟩ fun _ => minds_stop _

/-! main and what it calls. -/

section Steps
variable {fd : BitVec 32}

theorem proper_set_p (optarg : Str) : Proper (Setting fd) (set_p optarg) fun _ => Setting fd := by
  refine minds_query (Query.setenv _ optarg) (fun history _ setting => ⟨setting.unforked,.inl rfl⟩) fun result => ?_
  refine minds_pure () ?_
  rintro _ _ ⟨past,rfl,setting⟩
  exact setting_preload optarg result setting

theorem proper_set_o (optarg : Str) : Proper (Setting fd) (set_o optarg) fun fd => Setting fd := by
  refine minds_query (Query.open optarg _ _) (fun history _ setting => ⟨setting.unforked,rfl,rfl⟩) fun opened => ?_
  refine minds_query (Query.setenv _ (decimal opened)) ?_ fun result => minds_pure opened ?_
  · rintro _ _ ⟨past,rfl,setting⟩
    have last := lastOpened_open past optarg opened
    refine ⟨unforked_last setting.unforked trivial,.inr ⟨rfl,?_⟩⟩
    rw [descriptor,last,Option.getD_some]
  · rintro _ _ ⟨_,rfl,past,rfl,setting⟩
    have last := lastOpened_open past optarg opened
    have unforked := unforked_last (a := opened) setting.unforked (show Early (.open optarg _ _) from trivial)
    have settled := setting_logger unforked (by rw [descriptor,last,Option.getD_some]) result
    rwa [last,Option.getD_some] at settled

theorem proper_options (rounds : Nat) (s : Scan) : Proper (Setting fd) (options rounds s fd) fun found => Setting found.2 := by
  induction rounds generalizing s fd with
  | zero => exact minds_stop _
  | succ rounds ih =>
    rw [options]
    split
    next => exact minds_pure _ fun _ _ setting => setting
    next optarg s _ => exact minds_bind (proper_set_p optarg) fun _ => ih s
    next optarg s _ => exact minds_bind (proper_set_o optarg) fun _ => ih s
    next => exact minds_usage fun _ _ => trivial

theorem proper_copy (words : List Str) (opt : Nat) (command_buf : Vector (Option Str) 32) :
    Proper (Setting fd) (copy words opt command_buf) fun _ => Setting fd := by
  induction words generalizing opt command_buf with
  | nil => exact minds_pure _ fun _ _ setting => setting
  | cons word words ih =>
    rw [copy]
    split
    next => exact ih _ _
    next => exact minds_stop _

/-- After the fork, in the parent of `pid`. -/
structure Waiting (fd pid : BitVec 32) (history : Past) : Prop where
  fd : fd = (lastOpened history).getD (-1)
  positive : 0 < pid.toInt
  forked : ⟨.fork,pid⟩ ∈ history
  still : ∀ other, ∀ result : BitVec 32, ⟨.waitpid other,result⟩ ∈ history → result ≠ -1

theorem proper_wait (patience : Nat) (pid : BitVec 32) : Proper (Waiting fd pid) (wait patience pid) fun _ history =>
    fd = (lastOpened history).getD (-1) ∧ ∃ past, history = past ++ [⟨.waitpid pid,(-1 : BitVec 32)⟩] := by
  induction patience with
  | zero => exact minds_stop _
  | succ patience ih =>
    refine minds_query (Query.waitpid pid) (fun _ _ waiting => ⟨waiting.positive,waiting.forked,waiting.still⟩) fun result => ?_
    have same (past : Past) : lastOpened (past ++ [⟨.waitpid pid,result⟩]) = lastOpened past := lastOpened_last past _
    refine minds_ite _ (fun failed => minds_pure () ?_) fun more => ih.weaken ?_ fun _ _ _ holds => holds
    · rintro _ _ ⟨past,rfl,waiting⟩
      subst failed
      exact ⟨by rw [same,waiting.fd],past,rfl⟩
    · rintro _ _ ⟨past,rfl,waiting⟩
      refine ⟨by rw [same,waiting.fd],waiting.positive,List.mem_append_left _ waiting.forked,?_⟩
      intro other answer member
      obtain before | last := List.mem_append.mp member
      · exact waiting.still other answer before
      · cases List.mem_singleton.mp last
        exact more

theorem proper_parent (patience : Nat) (pid : BitVec 32) : Proper (Waiting fd pid) (parent patience fd pid) fun _ _ => True := by
  refine minds_bind (proper_wait patience pid) fun _ => ?_
  refine minds_ite _ (fun opened => ?_) fun _ => minds_pure 0 fun _ _ _ => trivial
  refine minds_query (Query.close fd) ?_ fun _ => minds_pure 0 fun _ _ _ => trivial
  rintro history _ ⟨given,past,rfl⟩
  refine ⟨opened,?_,past,pid,rfl⟩
  cases last : lastOpened (past ++ [⟨.waitpid pid,(-1 : BitVec 32)⟩]) with
  | none =>
    rw [last,Option.getD_none] at given
    rw [given] at opened
    exact absurd opened (by decide)
  | some other =>
    rw [last,Option.getD_some] at given
    rw [given]

theorem proper_child (file : Option Str) (command_buf : List (Option Str)) :
    Proper (fun history => ∃ past, history = past ++ [⟨.fork,(0 : BitVec 32)⟩] ∧ Setting fd past) (child file command_buf)
      fun _ _ => True := by
  unfold child
  cases terminated command_buf with
  | none => exact minds_stop _
  | some argv =>
    refine minds_query (Query.execvp file argv) ?_ fun result => ?_
    · rintro _ _ ⟨past,rfl,setting⟩
      refine ⟨⟨past,rfl⟩,fun works => ?_⟩
      have same : lastOpened (past ++ [⟨.fork,(0 : BitVec 32)⟩]) = lastOpened past := lastOpened_last past _
      have env : getenv (past ++ [⟨.fork,(0 : BitVec 32)⟩]) "LOGGER".toList = getenv past "LOGGER".toList :=
        getenv_last past _ _
      rw [env,setting.logger (works_past works),Option.map_some,decimal_atoi,descriptor,descriptor,same]
    · cases result with
      | none => exact minds_stop _
      | some result =>
        refine minds_ite _ (fun _ => ?_) fun _ => minds_pure 0 fun _ _ _ => trivial
        exact minds_query (Query.fprintf _) (fun _ _ _ => trivial) fun _ => minds_pure 0 fun _ _ _ => trivial

theorem proper_launch (patience : Nat) (file : Option Str) (command_buf : List (Option Str)) :
    Proper (Setting fd) (launch patience fd file command_buf) fun _ _ => True := by
  refine minds_query Query.fork (fun _ _ setting => setting.unforked) fun pid => ?_
  refine minds_ite _ (fun _ => ?_) fun alive => minds_ite _ (fun born => ?_) fun parent => ?_
  · exact minds_query (Query.fprintf _) (fun _ _ _ => trivial) fun _ => minds_stop _
  · subst born
    exact proper_child file command_buf
  · refine (proper_parent patience pid).weaken ?_ fun _ _ _ holds => holds
    rintro _ _ ⟨past,rfl,setting⟩
    have same : lastOpened (past ++ [⟨.fork,pid⟩]) = lastOpened past := lastOpened_last past _
    have apart : (pid : BitVec 32).toInt ≠ 0 := fun zero => parent (BitVec.toInt_inj.mp zero)
    refine ⟨by rw [same,setting.fd],by omega,List.mem_append_right _ (List.mem_singleton_self _),?_⟩
    intro other result member
    obtain before | last := List.mem_append.mp member
    · exact absurd (setting.unforked _ before) id
    · cases List.mem_singleton.mp last

end Steps

theorem setting_start {history : Past} (unforked : Unforked history) (nothing : lastOpened history = none)
    (result : BitVec 32) : Setting (-1) (history ++ [⟨.setenv "LOGGER".toList "2".toList,result⟩]) := by
  have told : "2".toList = decimal (descriptor history) := by
    rw [descriptor,nothing]
    decide
  have settled := setting_logger unforked told result
  rwa [nothing,Option.getD_none] at settled

theorem proper_main (patience : Nat) (argv : List Str) : Proper (· = []) (main patience argv) fun _ _ => True := by
  unfold main
  refine minds_ite _ (fun _ => ?_) fun _ => ?_
  · exact minds_query (Query.fprintf _) (fun _ _ _ => trivial) fun _ => minds_stop _
  · refine minds_query (Query.setenv _ _) ?_ fun preload => minds_query (Query.setenv _ _) ?_ fun logger => ?_
    · rintro _ _ rfl
      exact ⟨fun x member => absurd member List.not_mem_nil,.inl rfl⟩
    · rintro _ _ ⟨_,rfl,rfl⟩
      exact ⟨List.forall_mem_singleton.mpr trivial,.inr ⟨rfl,(by decide : "2".toList = decimal 2)⟩⟩
    · have options : Proper (Setting (-1)) (options argv.length (.start argv) (-1)) fun found => Setting found.2 :=
        proper_options _ _
      refine minds_bind (options.weaken ?_ fun _ _ _ holds => holds) fun found => minds_bind (proper_copy _ _ _) fun command_buf =>
        proper_launch _ _ _
      rintro _ _ ⟨_,rfl,_,rfl,rfl⟩
      have unforked : Unforked [⟨.setenv "LD_PRELOAD".toList shared_lib,preload⟩] := List.forall_mem_singleton.mpr trivial
      exact setting_start unforked rfl logger

/-- Whatever the command line and the answers of the system: hw2 forks once; the child
executes the command with LOGGER naming, for atoi, the descriptor of the last file opened
or standard error; the parent waits for that child until waitpid fails, and closes that file. -/
theorem main_lawful (patience : Nat) (argv : List Str) (play : List (Sigma Query.Answer)) (ending : Ending Unit Stop Int)
    (goes : Played ((main patience argv).run ()) play ending) : Lawful Allowed [] play :=
  (proper_main patience argv [] () rfl play ending goes).1

def trueLine : List Str := ["hw2".toList,['-','o'],"log".toList,"true".toList]

theorem main_lawful_true : Lawful Allowed [] (((main 3 trueLine).run ()).play obliging).1 :=
  main_lawful 3 trueLine _ _ (play_played obliging _)

/-! The environment in the child, and where the log of the traced program goes. -/

/-- The options as getopt reports them, up to one that it refuses. -/
def reported : Nat → Scan → List Given
  | 0,_ => []
  | rounds+1,s => match getopt optstring s with
    | (.letter 'p' (some optarg),s) => .p optarg::reported rounds s
    | (.letter 'o' (some optarg),s) => .o optarg::reported rounds s
    | _ => []

def givenBy (argv : List Str) : List Given := reported argv.length (.start argv)

def Given.preload (so : Str) : Given → Str
  | .p so => so
  | .o _ => so

def Given.file : Given → Option Str
  | .p _ => none
  | .o file => some file

def openedPath : Sigma Query.Answer → Option Str
  | ⟨.open path _ _,_⟩ => some path
  | _ => none

/-- The library that is preloaded after a history, and the files opened. -/
structure Furnished (so : Str) (files : List Str) (history : Past) : Prop where
  preload : Works history → getenv history "LD_PRELOAD".toList = some so
  opened : history.filterMap openedPath = files

/-- The command is executed with the library and the files that the options ask for. -/
def Furnishes (given : List Given) (history : Past) : Query → Prop
  | .execvp _ _ => Furnished (given.foldl Given.preload shared_lib) (given.filterMap Given.file) history
  | _ => True

section Furnishing
variable {given : List Given} {so : Str} {files : List Str}

abbrev Furnishing {α : Type} (given : List Given) (pre : Past → Prop) (p : Op α) (post : α → Past → Prop) : Prop :=
  Minds (Furnishes given) (fun history _ => pre history) p fun value history _ => post value history

theorem furnished_other {history : Past} {q : Query} {a : q.Answer} (furnished : Furnished so files history)
    (set : setting "LD_PRELOAD".toList ⟨q,a⟩ = none) (path : openedPath ⟨q,a⟩ = none) :
    Furnished so files (history ++ [⟨q,a⟩]) := by
  refine ⟨fun works => ?_,?_⟩
  · rw [getenv_last,set,Option.none_or]
    exact furnished.preload (works_past works)
  · simp [path,furnished.opened]

theorem furnished_p {history : Past} (opened : history.filterMap openedPath = files) (optarg : Str) (result : BitVec 32) :
    Furnished optarg files (history ++ [⟨.setenv "LD_PRELOAD".toList optarg,result⟩]) := by
  refine ⟨fun works => ?_,?_⟩
  · rw [getenv_last,setting_setenv,if_pos ⟨rfl,works_last works⟩,Option.some_or]
  · rw [List.filterMap_append,opened]
    exact List.append_nil files

theorem furnished_o {history : Past} (furnished : Furnished so files history) (path : Str) (flags mode fd : BitVec 32) :
    Furnished so (files ++ [path]) (history ++ [⟨.open path flags mode,fd⟩]) := by
  have env : getenv (history ++ [⟨.open path flags mode,fd⟩]) "LD_PRELOAD".toList = getenv history "LD_PRELOAD".toList :=
    getenv_last history _ _
  refine ⟨fun works => ?_,?_⟩
  · rw [env]
    exact furnished.preload (works_past works)
  · rw [List.filterMap_append,furnished.opened]
    rfl

theorem furnished_logger {history : Past} (furnished : Furnished so files history) (value : Str) (result : BitVec 32) :
    Furnished so files (history ++ [⟨.setenv "LOGGER".toList value,result⟩]) := by
  refine furnished_other furnished ?_ rfl
  rw [setting_setenv,if_neg fun ⟨same,_⟩ => absurd same (by decide)]

theorem furnishing_set_p (optarg : Str) :
    Furnishing given (Furnished so files) (set_p optarg) fun _ => Furnished optarg files := by
  refine minds_query (Query.setenv _ optarg) (fun _ _ _ => trivial) fun result => minds_pure () ?_
  rintro _ _ ⟨past,rfl,furnished⟩
  exact furnished_p furnished.opened optarg result

theorem furnishing_set_o (optarg : Str) :
    Furnishing given (Furnished so files) (set_o optarg) fun _ => Furnished so (files ++ [optarg]) := by
  refine minds_query (Query.open optarg _ _) (fun _ _ _ => trivial) fun opened =>
    minds_query (Query.setenv _ (decimal opened)) (fun _ _ _ => trivial) fun result => minds_pure opened ?_
  rintro _ _ ⟨_,rfl,past,rfl,furnished⟩
  exact furnished_logger (furnished_o furnished optarg _ _ opened) (decimal opened) result

theorem furnishing_options (rounds : Nat) (s : Scan) (fd : BitVec 32) (so : Str) (files : List Str) :
    Furnishing given (Furnished so files) (options rounds s fd) fun _ =>
      Furnished ((reported rounds s).foldl Given.preload so) (files ++ (reported rounds s).filterMap Given.file) := by
  induction rounds generalizing s fd so files with
  | zero => exact minds_stop _
  | succ rounds ih =>
    rw [options]
    split
    next found =>
      rw [reported,found]
      exact minds_pure _ fun _ _ furnished => by simpa using furnished
    next optarg s' found =>
      rw [reported,found]
      exact minds_bind (furnishing_set_p optarg) fun _ => ih s' fd optarg files
    next optarg s' found =>
      rw [reported,found]
      refine minds_bind (furnishing_set_o optarg) fun opened => (ih s' opened so (files ++ [optarg])).weaken ?_ ?_
      · exact fun _ _ furnished => furnished
      · intro _ _ _ furnished
        rwa [List.append_assoc] at furnished
    next => exact minds_usage fun _ _ => trivial

theorem furnishing_copy (words : List Str) (opt : Nat) (command_buf : Vector (Option Str) 32) :
    Furnishing given (Furnished so files) (copy words opt command_buf) fun _ => Furnished so files := by
  induction words generalizing opt command_buf with
  | nil => exact minds_pure _ fun _ _ furnished => furnished
  | cons word words ih =>
    rw [copy]
    split
    next => exact ih _ _
    next => exact minds_stop _

theorem furnishing_parent (patience : Nat) (fd pid : BitVec 32) {pre : Past → Prop} :
    Furnishing given pre (parent patience fd pid) fun _ _ => True := by
  refine fun history _ _ play ending goes => ⟨fun before x after split => ?_,fun _ _ _ => trivial⟩
  obtain ⟨_,nothing⟩ := parent_plays goes
  obtain ⟨q,a⟩ := x
  cases q with
  | execvp file argv =>
    rw [split,executed_append] at nothing
    cases (List.append_eq_nil_iff.mp nothing).2
  | _ => trivial

theorem furnishing_child (file : Option Str) (command_buf : List (Option Str)) :
    Furnishing given (Furnished (given.foldl Given.preload shared_lib) (given.filterMap Given.file)) (child file command_buf)
      fun _ _ => True := by
  unfold child
  cases terminated command_buf with
  | none => exact minds_stop _
  | some argv =>
    refine minds_query (Query.execvp file argv) (fun _ _ furnished => furnished) fun result => ?_
    cases result with
    | none => exact minds_stop _
    | some result =>
      refine minds_ite _ (fun _ => ?_) fun _ => minds_pure 0 fun _ _ _ => trivial
      exact minds_query (Query.fprintf _) (fun _ _ _ => trivial) fun _ => minds_pure 0 fun _ _ _ => trivial

theorem furnishing_launch (patience : Nat) (fd : BitVec 32) (file : Option Str) (command_buf : List (Option Str)) :
    Furnishing given (Furnished (given.foldl Given.preload shared_lib) (given.filterMap Given.file))
      (launch patience fd file command_buf) fun _ _ => True := by
  refine minds_query Query.fork (fun _ _ _ => trivial) fun pid => ?_
  refine minds_ite _ (fun _ => ?_) fun _ => minds_ite _ (fun _ => ?_) fun _ => furnishing_parent patience fd pid
  · exact minds_query (Query.fprintf _) (fun _ _ _ => trivial) fun _ => minds_stop _
  · refine (furnishing_child file command_buf).weaken ?_ fun _ _ _ holds => holds
    rintro _ _ ⟨past,rfl,furnished⟩
    exact furnished_other furnished rfl rfl

end Furnishing

theorem furnishing_main (patience : Nat) (argv : List Str) :
    Furnishing (givenBy argv) (· = []) (main patience argv) fun _ _ => True := by
  unfold main
  refine minds_ite _ (fun _ => ?_) fun _ => ?_
  · exact minds_query (Query.fprintf _) (fun _ _ _ => trivial) fun _ => minds_stop _
  · refine minds_query (Query.setenv _ _) (fun _ _ _ => trivial) fun preload =>
      minds_query (Query.setenv _ _) (fun _ _ _ => trivial) fun logger => ?_
    have options : Furnishing (givenBy argv) (Furnished shared_lib []) (options argv.length (.start argv) (-1)) fun _ =>
        Furnished ((givenBy argv).foldl Given.preload shared_lib) ((givenBy argv).filterMap Given.file) :=
      furnishing_options _ _ _ _ []
    refine minds_bind (options.weaken ?_ fun _ _ _ holds => holds) fun found =>
      minds_bind (furnishing_copy _ _ _) fun command_buf => furnishing_launch _ _ _ _
    rintro _ _ ⟨_,rfl,_,rfl,rfl⟩
    have nothing : ([] : Past).filterMap openedPath = [] := rfl
    exact furnished_logger (furnished_p nothing shared_lib preload) _ logger

/-- In the child the library of the last -p is preloaded, and the files of all -o have been
opened in order. A program that reads LOGGER there writes its log to the last of them,
or to standard error, and nowhere else. -/
theorem log_follows (patience : Nat) (argv : List Str) (play : List (Sigma Query.Answer)) (ending : Ending Unit Stop Int)
    (goes : Played ((main patience argv).run ()) play ending) (before after : List (Sigma Query.Answer))
    (file : Option Str) (args : List Str) (a : Option (BitVec 32)) (split : play = before ++ ⟨.execvp file args,a⟩::after)
    (works : Works before) :
    getenv before "LD_PRELOAD".toList = some ((givenBy argv).foldl Given.preload shared_lib) ∧
      before.filterMap openedPath = (givenBy argv).filterMap Given.file ∧
      ∀ session, Logger.Session .initial session →
        (∀ answer, ⟨.logger,answer⟩ ∈ session.flatMap Logger.Interaction.play →
          answer.value = (getenv before "LOGGER".toList).map atoi) →
        ∀ fd text answer, ⟨.dprintf fd text,answer⟩ ∈ session.flatMap Logger.Interaction.play →
          fd = (descriptor before).toInt ∨
            fd = 2 ∧ ∃ opened, ⟨.dlopen,opened⟩ ∈ session.flatMap Logger.Interaction.play ∧ opened.value = false := by
  have furnished := (furnishing_main patience argv [] () rfl play ending goes).1 before _ after split
  have lawful := (proper_main patience argv [] () rfl play ending goes).1 before _ after split
  rw [List.nil_append] at furnished lawful
  obtain ⟨_,logger⟩ := lawful
  refine ⟨furnished.preload works,furnished.opened,fun session made reads fd text answer member => ?_⟩
  obtain ⟨earlier,later,place⟩ := List.append_of_mem member
  have turn := Logger.session_agrees made [] Logger.agrees_initial earlier _ later place
  rw [List.nil_append] at turn
  obtain read | ⟨rfl,past,opened,rfl,failed⟩ := turn
  · obtain ⟨reply,asked,told⟩ := Logger.lastReading_mem read
    have same := reads reply (by rw [place]; exact List.mem_append_left _ asked)
    rw [told,logger works] at same
    exact .inl (Option.some.inj same)
  · refine .inr ⟨rfl,opened,?_,failed⟩
    rw [place]
    exact List.mem_append_left _ (List.mem_append_right _ (List.mem_singleton_self _))

def trueBefore : Past := [⟨.setenv "LD_PRELOAD".toList shared_lib,(0 : BitVec 32)⟩,⟨.setenv "LOGGER".toList "2".toList,(0 : BitVec 32)⟩,
  ⟨.open "log".toList (O_WRONLY ||| O_CREAT ||| O_TRUNC) S_IRWXU,(3 : BitVec 32)⟩,
  ⟨.setenv "LOGGER".toList (decimal 3),(0 : BitVec 32)⟩,⟨.fork,(0 : BitVec 32)⟩]

theorem trueBefore_works : Works trueBefore := by
  intro name value result member
  simp only [trueBefore,List.mem_cons,List.not_mem_nil,or_false] at member
  obtain same | same | same | same | same := member
  all_goals cases same
  all_goals rfl

theorem log_follows_true : getenv trueBefore "LD_PRELOAD".toList = some shared_lib ∧ ∀ session, Logger.Session .initial session →
    (∀ answer, ⟨.logger,answer⟩ ∈ session.flatMap Logger.Interaction.play → answer.value = some 3) →
    ∀ fd text answer, ⟨.dprintf fd text,answer⟩ ∈ session.flatMap Logger.Interaction.play →
      fd = 3 ∨ fd = 2 ∧ ∃ opened, ⟨.dlopen,opened⟩ ∈ session.flatMap Logger.Interaction.play ∧ opened.value = false := by
  have goes := play_played obliging ((main 3 trueLine).run ())
  obtain ⟨preload,_,follows⟩ :=
    log_follows 3 trueLine _ _ goes trueBefore [] (some "true".toList) ["true".toList] none rfl trueBefore_works
  have logger : (getenv trueBefore "LOGGER".toList).map atoi = some 3 := by decide
  rw [logger] at follows
  exact ⟨preload,follows⟩


end Unixprog.Hw2
