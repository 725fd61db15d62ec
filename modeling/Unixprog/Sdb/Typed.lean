import Unixprog.Library.Tokens
import Unixprog.Sdb.Script
import Unixprog.Sdb.Load

/-! Command lines and scripts as they are written, and the arguments of main. -/
namespace Unixprog.Sdb
open CStrings Words

/-- The words that main takes for the command. -/
def Command.names : Command → List String
  | .break _ => ["break","b"]
  | .cont => ["cont","c"]
  | .delete _ => ["delete"]
  | .disasm _ => ["disasm","d"]
  | .dump _ => ["dump","x"]
  | .exit => ["exit","q"]
  | .get _ => ["get","g"]
  | .getregs => ["getregs"]
  | .help => ["help","h"]
  | .list => ["list","l"]
  | .load _ => ["load"]
  | .run => ["run","r"]
  | .vmmap => ["vmmap","m"]
  | .set _ _ => ["set","s"]
  | .si => ["si"]
  | .start => ["start"]

/-- Words that read as the arguments of the command. -/
def Command.Reads : Command → List (List Char) → Prop
  | .break addr,[text] => strtoul16 text = addr
  | .delete id,[text] => atoi text = id
  | .disasm addr,[text] => strtoul16 text = addr
  | .dump addr,[text] => strtoul16 text = addr
  | .get regName,[text] => String.ofList text = regName
  | .load fileName,[text] => String.ofList text = fileName
  | .set regName val,[text,number] => String.ofList text = regName ∧ strtoul16 number = val
  | .break _,_ => False
  | .delete _,_ => False
  | .disasm _,_ => False
  | .dump _,_ => False
  | .get _,_ => False
  | .load _,_ => False
  | .set _ _,_ => False
  | _,arguments => arguments = []

/-- Text of one line, as getline and strlen see it. -/
def Plain (text : List Char) : Prop := ∀ c ∈ text, c ≠ '\n' ∧ c ≠ '\x00'

instance (text : List Char) : Decidable (Plain text) := List.decidableBAll _ text

/-- A line that spells the command: one of its names, its arguments, then any words. -/
structure Written (command : Command) (line : List Char) : Prop where
  laid : ∃ name ∈ command.names, ∃ arguments surplus, command.Reads arguments ∧
    Laid [' '] line (name.toList::(arguments ++ surplus))
  plain : Plain line

theorem parseCmd_laid {line name : List Char} {tokens : List (List Char)} (laid : Laid [' '] line (name::tokens)) :
    parseCmd line = some (name,tokens) := by
  rw [parseCmd,strtoks_laid laid _ (laid_length laid)]

theorem dispatch_named {command : Command} {name : String} (named : name ∈ command.names)
    {arguments : List (List Char)} (surplus : List (List Char)) (reads : command.Reads arguments) :
    dispatch name (arguments ++ surplus) = .call command := by
  cases command with
  | «break» addr =>
    match arguments,reads with
    | [text],reads =>
      obtain rfl := reads
      obtain rfl | rfl := List.mem_pair.mp named <;> rfl
  | cont =>
    obtain rfl := reads
    obtain rfl | rfl := List.mem_pair.mp named <;> rfl
  | delete id =>
    match arguments,reads with
    | [text],reads =>
      obtain rfl := reads
      obtain rfl := List.mem_singleton.mp named
      rfl
  | disasm addr =>
    match arguments,reads with
    | [text],reads =>
      obtain rfl := reads
      obtain rfl | rfl := List.mem_pair.mp named <;> rfl
  | dump addr =>
    match arguments,reads with
    | [text],reads =>
      obtain rfl := reads
      obtain rfl | rfl := List.mem_pair.mp named <;> rfl
  | exit =>
    obtain rfl := reads
    obtain rfl | rfl := List.mem_pair.mp named <;> rfl
  | get regName =>
    match arguments,reads with
    | [text],reads =>
      obtain rfl := reads
      obtain rfl | rfl := List.mem_pair.mp named <;> rfl
  | getregs =>
    obtain rfl := reads
    obtain rfl := List.mem_singleton.mp named
    rfl
  | help =>
    obtain rfl := reads
    obtain rfl | rfl := List.mem_pair.mp named <;> rfl
  | list =>
    obtain rfl := reads
    obtain rfl | rfl := List.mem_pair.mp named <;> rfl
  | load fileName =>
    match arguments,reads with
    | [text],reads =>
      obtain rfl := reads
      obtain rfl := List.mem_singleton.mp named
      rfl
  | run =>
    obtain rfl := reads
    obtain rfl | rfl := List.mem_pair.mp named <;> rfl
  | vmmap =>
    obtain rfl := reads
    obtain rfl | rfl := List.mem_pair.mp named <;> rfl
  | set regName val =>
    match arguments,reads with
    | [text,number],reads =>
      obtain ⟨rfl,rfl⟩ := reads
      obtain rfl | rfl := List.mem_pair.mp named <;> rfl
  | si =>
    obtain rfl := reads
    obtain rfl := List.mem_singleton.mp named
    rfl
  | start =>
    obtain rfl := reads
    obtain rfl := List.mem_singleton.mp named
    rfl

/-- Every way to write a command is read as that command. -/
theorem react_written {command : Command} {line : List Char} (written : Written command line) :
    react line = .call command := by
  obtain ⟨⟨name,named,arguments,surplus,reads,laid⟩,_⟩ := written
  rw [react,parseCmd_laid laid]
  change dispatch (String.ofList name.toList) _ = _
  rw [String.ofList_toList]
  exact dispatch_named named surplus reads

/-! The line that spells a command as sdb prints numbers. -/

/-- A word that can stand in a line. -/
def Wordlike (text : List Char) : Prop := text ≠ [] ∧ (∀ c ∈ text, c ∉ [' ']) ∧ Plain text

instance (text : List Char) : Decidable (Wordlike text) :=
  @instDecidableAnd _ _ _ (@instDecidableAnd _ _ (List.decidableBAll _ text) _)

def Command.Typable : Command → Prop
  | .delete id => -2^31 ≤ id ∧ id < 2^31
  | .get regName => Wordlike regName.toList
  | .load fileName => Wordlike fileName.toList
  | .set regName _ => Wordlike regName.toList
  | _ => True

def Command.spelled : Command → List (List Char)
  | .break addr => [hexText 0 addr.toNat]
  | .delete id => [(toString id).toList]
  | .disasm addr => [hexText 0 addr.toNat]
  | .dump addr => [hexText 0 addr.toNat]
  | .get regName => [regName.toList]
  | .load fileName => [fileName.toList]
  | .set regName val => [regName.toList,hexText 0 val.toNat]
  | _ => []

def Command.line (command : Command) (name : String) : List Char :=
  List.intercalate [' '] (name.toList::command.spelled)

theorem hexText_word (value : Nat) : Wordlike (hexText 0 value) := by
  refine ⟨hexText_some _ _,fun c member => ?_,fun c member => ?_⟩
  · rw [List.mem_singleton]
    exact hex_apart (hexText_hex _ _ c member) rfl
  · have hex := hexText_hex _ _ c member
    exact ⟨hex_apart hex rfl,hex_apart hex rfl⟩

theorem decimal_word (n : Int) : Wordlike (toString n).toList := by
  have digits (k : Nat) : Wordlike (toString k).toList := by
    rw [toString_digits]
    refine ⟨Nat.toDigits_ne_nil,fun c member space => ?_,fun c member => ⟨?_,?_⟩⟩
    · obtain rfl := List.mem_singleton.mp space
      cases toDigits_dec k _ member
    · rintro rfl
      cases toDigits_dec k _ member
    · rintro rfl
      cases toDigits_dec k _ member
  cases n with
  | ofNat k => exact digits k
  | negSucc k =>
    obtain ⟨_,apart,plain⟩ := digits (k+1)
    rw [show toString (Int.negSucc k) = "-" ++ toString (k+1) from rfl,String.toList_append]
    have minus : Wordlike "-".toList := by decide
    exact ⟨by simp,List.forall_mem_append.mpr ⟨minus.2.1,apart⟩,List.forall_mem_append.mpr ⟨minus.2.2,plain⟩⟩

theorem spelled_words {command : Command} (typable : command.Typable) : ∀ word ∈ command.spelled, Wordlike word := by
  cases command with
  | «break» addr => exact List.forall_mem_singleton.mpr (hexText_word _)
  | delete id => exact List.forall_mem_singleton.mpr (decimal_word id)
  | disasm addr => exact List.forall_mem_singleton.mpr (hexText_word _)
  | dump addr => exact List.forall_mem_singleton.mpr (hexText_word _)
  | get regName => exact List.forall_mem_singleton.mpr typable
  | load fileName => exact List.forall_mem_singleton.mpr typable
  | set regName val => exact List.forall_mem_cons.mpr ⟨typable,List.forall_mem_singleton.mpr (hexText_word _)⟩
  | _ => exact fun word member => absurd member List.not_mem_nil

theorem spelled_reads {command : Command} (typable : command.Typable) : command.Reads command.spelled := by
  cases command with
  | «break» addr => exact strtoul16_hexText 0 addr
  | delete id => exact atoi_toString typable.1 typable.2
  | disasm addr => exact strtoul16_hexText 0 addr
  | dump addr => exact strtoul16_hexText 0 addr
  | get regName => exact String.ofList_toList
  | load fileName => exact String.ofList_toList
  | set regName val => exact ⟨String.ofList_toList,strtoul16_hexText 0 val⟩
  | _ => rfl

theorem names_words (command : Command) : ∀ name ∈ command.names, Wordlike name.toList := by
  cases command <;> simp only [Command.names,List.forall_mem_cons] <;> decide

theorem intercalate_plain {words : List (List Char)} (plain : ∀ word ∈ words, Wordlike word) :
    Plain (List.intercalate [' '] words) := by
  induction words with
  | nil => exact fun c member => absurd member List.not_mem_nil
  | cons word words ih =>
    obtain ⟨⟨_,_,first⟩,others⟩ := List.forall_mem_cons.mp plain
    cases words with
    | nil => simpa [List.intercalate] using first
    | cons next words =>
      rw [List.intercalate_cons_cons]
      have blank : Plain [' '] := by decide
      exact List.forall_mem_append.mpr ⟨List.forall_mem_append.mpr ⟨first,blank⟩,ih others⟩

theorem written_line {command : Command} (typable : command.Typable) {name : String} (named : name ∈ command.names) :
    Written command (command.line name) := by
  have words : ∀ word ∈ name.toList::command.spelled, Wordlike word :=
    List.forall_mem_cons.mpr ⟨names_words command name named,spelled_words typable⟩
  refine ⟨⟨name,named,command.spelled,[],spelled_reads typable,?_⟩,intercalate_plain words⟩
  rw [List.append_nil]
  exact laid_intercalate (List.mem_singleton_self _) _ fun word member => ⟨(words word member).1,(words word member).2.1⟩

/-- Every command that can be typed has a line, under each of its names, that main takes
for it; so has every other line that spells the same words. -/
theorem commands_round_trip (command : Command) (typable : command.Typable) :
    (∀ name ∈ command.names, Written command (command.line name)) ∧
      ∀ line, Written command line → react line = .call command :=
  ⟨fun _ named => written_line typable named,fun _ written => react_written written⟩

theorem commands_round_trip_delete : react "delete -3".toList = .call (.delete (-3)) := by
  have typable : Command.Typable (.delete (-3)) := ⟨by decide,by decide⟩
  obtain ⟨lines,read⟩ := commands_round_trip _ typable
  have line : Command.line (.delete (-3)) "delete" = "delete -3".toList := by decide
  rw [← line]
  exact read _ (lines "delete" (List.mem_singleton_self _))

/-! The arguments of main, and scripts. -/

def textOf (bytes : List Byte) : List Char := bytes.map fun b => Char.ofNat b.toNat

/-- What main does with `argv[1]`, `argv[2]`, .. before its loop: the text of the script,
`none` where the commands come from standard input. -/
def arguments (w : World) : List String → Op (Option (List Char))
  | [flag,fileName,program] =>
    if flag ≠ "-s" then error "unexpected flag." 25
    else match w.file fileName with
      | none => error "can not open script file." 28
      | some bytes => do
        Sdb.load w program
        return some (textOf bytes)
  | [flag,fileName] =>
    if flag ≠ "-s" then error "unexpected flag." 34
    else match w.file fileName with
      | none => error "can not open script file." 37
      | some bytes => return some (textOf bytes)
  | [program] => do
    Sdb.load w program
    return none
  | [] => return none
  | _ => error "wrong parameter format." 45

/-- main after `n` rounds of its loop. -/
def main (w : World) (fuel : Nat) (argv : List String) (input : List Char) (n : Nat) (s : Session) : Turn :=
  match (arguments w argv).run s with
  | .done (some text) t => (Console.start t text).rounds w fuel .script n
  | .done none t => (Console.start t input).rounds w fuel .interactive n
  | .exited code t => .ended code [] t
  | .waiting => .waiting []

/-- A line that main passes over: blank, or its first word names no command. -/
structure Idle (line : List Char) : Prop where
  words : ∃ words, Laid [' '] line words ∧
    ∀ word, words.head? = some word → ∀ command : Command, ∀ name ∈ command.names, word ≠ name.toList
  plain : Plain line

/-- Lines that spell these commands, with idle lines between them. -/
inductive Scripted : List Command → List (List Char) → Prop
  | nil : Scripted [] []
  | command {command : Command} {commands : List Command} {line : List Char} {lines : List (List Char)}
      (written : Written command line) (later : Scripted commands lines) : Scripted (command::commands) (line::lines)
  | idle {commands : List Command} {line : List Char} {lines : List (List Char)}
      (idle : Idle line) (later : Scripted commands lines) : Scripted commands (line::lines)

theorem dispatch_unnamed {cmd : String} (unnamed : ∀ command : Command, cmd ∉ command.names) (tokens : List (List Char)) :
    dispatch cmd tokens = .ignore := by
  have pair (command : Command) (one two : String) (names : command.names = [one,two]) : ¬ (cmd = one ∨ cmd = two) := by
    have apart := unnamed command
    rwa [names,List.mem_pair] at apart
  have single (command : Command) (one : String) (names : command.names = [one]) : cmd ≠ one := by
    have apart := unnamed command
    rwa [names,List.mem_singleton] at apart
  unfold dispatch
  rw [if_neg (pair (.break 0) _ _ rfl),if_neg (pair .cont _ _ rfl),if_neg (single (.delete 0) _ rfl),
    if_neg (pair (.disasm 0) _ _ rfl),if_neg (pair (.dump 0) _ _ rfl),if_neg (pair .exit _ _ rfl),
    if_neg (pair (.get "") _ _ rfl),if_neg (single .getregs _ rfl),if_neg (pair .help _ _ rfl),
    if_neg (pair .list _ _ rfl),if_neg (single (.load "") _ rfl),if_neg (pair .run _ _ rfl),
    if_neg (pair .vmmap _ _ rfl),if_neg (pair (.set "" 0) _ _ rfl),if_neg (single .si _ rfl),
    if_neg (single .start _ rfl)]

theorem react_idle {line : List Char} (idle : Idle line) : react line = .ignore := by
  obtain ⟨⟨words,laid,apart⟩,_⟩ := idle
  cases words with
  | nil => rw [react,parseCmd,strtoks_laid laid _ (laid_length laid)]
  | cons word tokens =>
    rw [react,parseCmd_laid laid]
    refine dispatch_unnamed (fun command member => apart word rfl command _ member ?_) tokens
    rw [String.toList_ofList]

theorem scripted_run (w : World) (fuel : Nat) {commands : List Command} {lines : List (List Char)}
    (scripted : Scripted commands lines) (s : Session) :
    (lines.forM (obey w fuel)).run s = (script w fuel commands).run s := by
  induction scripted generalizing s with
  | nil => rfl
  | @command command commands line lines written later ih =>
    have first : ((line::lines).forM (obey w fuel)).run s =
        ((obey w fuel line).run s).andThen fun _ => lines.forM (obey w fuel) := rfl
    rw [first,script_cons,obey,react_written written]
    change ((command.perform w fuel).run s).andThen _ = _
    cases (command.perform w fuel).run s with
    | done value t => exact ih t
    | exited code t => rfl
    | waiting => rfl
  | @idle commands line lines idle later ih =>
    have first : ((line::lines).forM (obey w fuel)).run s =
        ((obey w fuel line).run s).andThen fun _ => lines.forM (obey w fuel) := rfl
    rw [first,obey,react_idle idle]
    exact ih s

theorem scripted_performed (w : World) (fuel : Nat) {commands : List Command} {lines : List (List Char)}
    (scripted : Scripted commands lines) (s : Session) :
    performed w fuel lines s <+: commands ∧
      ∀ t, (lines.forM (obey w fuel)).run s = .done () t → performed w fuel lines s = commands := by
  induction scripted generalizing s with
  | nil => exact ⟨List.nil_prefix,fun _ _ => rfl⟩
  | @command command commands line lines written later ih =>
    have first : ((line::lines).forM (obey w fuel)).run s =
        ((obey w fuel line).run s).andThen fun _ => lines.forM (obey w fuel) := rfl
    rw [first,performed,react_written written]
    cases ran : (obey w fuel line).run s with
    | done value t =>
      obtain ⟨before,all⟩ := ih t
      exact ⟨List.prefix_cons_iff.mpr (.inr ⟨_,rfl,before⟩),fun u ok => congrArg _ (all u ok)⟩
    | exited code t => exact ⟨⟨commands,rfl⟩,fun u ok => by cases ok⟩
    | waiting => exact ⟨⟨commands,rfl⟩,fun u ok => by cases ok⟩
  | @idle commands line lines idle later ih =>
    have first : ((line::lines).forM (obey w fuel)).run s =
        ((obey w fuel line).run s).andThen fun _ => lines.forM (obey w fuel) := rfl
    have still : (obey w fuel line).run s = .done () s := by
      rw [obey,react_idle idle]
      rfl
    rw [first,performed,react_idle idle,still]
    exact ih s

theorem script_append (w : World) (fuel : Nat) (first second : List Command) (s : Session) :
    (script w fuel (first ++ second)).run s = ((script w fuel first).run s).andThen fun _ => script w fuel second := by
  induction first generalizing s with
  | nil => rfl
  | cons command first ih =>
    rw [List.cons_append,script_cons,script_cons]
    cases (command.perform w fuel).run s with
    | done value t => exact ih t
    | exited code t => rfl
    | waiting => rfl

/-- The whole debugger on a script: the loop of main from the session that the program
argument leaves, to the end of the file. -/
theorem rounds_scripted (w : World) (fuel : Nat) {commands : List Command} {text : List Char}
    (scripted : Scripted commands (inputLines text)) (s : Session) :
    match (script w fuel (commands ++ [.exit])).run s with
    | .exited code t => ∃ n calls, (Console.start s text).rounds w fuel .script n = .ended code calls t ∧
        calls <+: commands ++ [.exit]
    | .waiting => ∃ n calls, (Console.start s text).rounds w fuel .script n = .waiting calls ∧ calls <+: commands
    | .done _ _ => False := by
  have lines := carried w fuel .script (inputLines text) (Console.start s text) rfl (start_quitless s text)
  have session : (Console.start s text).session = s := rfl
  have calls : (Console.start s text).calls = [] := rfl
  rw [session,calls,List.nil_append,scripted_run w fuel scripted] at lines
  obtain ⟨before,all⟩ := scripted_performed w fuel scripted s
  rw [scripted_run w fuel scripted] at all
  rw [script_append]
  cases ran : (script w fuel commands).run s with
  | done value t =>
    rw [ran] at lines
    obtain ⟨n,d,reached,empty,rfl,called,_⟩ := lines
    have exiting : (script w fuel [.exit]).run d.session = (quit.run d.session).andThen fun _ => script w fuel [] := rfl
    obtain ⟨u,exits⟩ := quit_exits d.session
    have read : getline d.input = none := by rw [empty]; rfl
    have last : d.rounds w fuel .script 1 = .ended 0 (d.calls ++ [.exit]) u := by
      simp only [Console.rounds,Console.round,read,exits]
    rw [andThen_done,exiting,exits]
    refine ⟨n+1,d.calls ++ [.exit],?_,?_⟩
    · rw [rounds_add,reached]
      exact last
    · rw [called,all _ ran]
  | exited code t =>
    rw [ran] at lines
    obtain ⟨n,ended⟩ := lines
    exact ⟨n,_,ended,before.trans (List.prefix_append _ _)⟩
  | waiting =>
    rw [ran] at lines
    obtain ⟨n,ended⟩ := lines
    exact ⟨n,_,ended,before⟩

/-- `sdb -s file` and `sdb -s file program` carry out the commands that the file spells,
after a load of the program where there is one, and then quit; standard input is not read. -/
theorem scripts_carried_out (w : World) (fuel : Nat) (fileName : String) (bytes : List Byte)
    (found : w.file fileName = some bytes) (commands : List Command)
    (scripted : Scripted commands (inputLines (textOf bytes))) (program : Option String) (input : List Char) (s : Session) :
    match (script w fuel (program.toList.map .load ++ (commands ++ [.exit]))).run s with
    | .exited code t => ∃ n calls, main w fuel ("-s"::fileName::program.toList) input n s = .ended code calls t ∧
        calls <+: commands ++ [.exit]
    | .waiting => ∃ n calls, main w fuel ("-s"::fileName::program.toList) input n s = .waiting calls ∧ calls <+: commands
    | .done _ _ => False := by
  cases program with
  | none =>
    have begins (n : Nat) : main w fuel ["-s",fileName] input n s =
        (Console.start s (textOf bytes)).rounds w fuel .script n := by
      simp only [main,arguments,ne_eq,not_true_eq_false,if_false,found]
      rfl
    simp only [Option.toList_none,List.map_nil,List.nil_append,begins]
    exact rounds_scripted w fuel scripted s
  | some program =>
    have first (fuel : Nat) : (script w fuel (.load program::(commands ++ [.exit]))).run s =
        ((Sdb.load w program).run s).andThen fun _ => script w fuel (commands ++ [.exit]) := by
      rw [script_cons,Command.perform]
    simp only [Option.toList_some,List.map_cons,List.map_nil,List.singleton_append,first]
    cases loaded : (Sdb.load w program).run s with
    | done value t =>
      have begins (n : Nat) : main w fuel ["-s",fileName,program] input n s =
          (Console.start t (textOf bytes)).rounds w fuel .script n := by
        simp only [main,arguments,ne_eq,not_true_eq_false,if_false,found,bind_run,loaded]
        rfl
      simp only [andThen_done,begins]
      exact rounds_scripted w fuel scripted t
    | exited code t =>
      have ends (n : Nat) : main w fuel ["-s",fileName,program] input n s = .ended code [] t := by
        simp only [main,arguments,ne_eq,not_true_eq_false,if_false,found,bind_run,loaded,andThen_exited]
      exact ⟨0,[],ends 0,List.nil_prefix⟩
    | waiting =>
      cases load_loading w program s with
      | busy busy ran => simp [ran] at loaded
      | missing idle missing ran => simp [ran] at loaded
      | refused bytes idle found bad ran => simp [ran] at loaded
      | loaded bytes idle found magic sound ran => simp [ran] at loaded
      | faults bytes u idle found magic faults opened child ran => simp [ran] at loaded

def listScript : List Byte := "list\n \nb 1000".toList.map fun c => BitVec.ofNat 8 c.toNat

def listWorld : World := {crashing with file := fun _ => some listScript}

theorem listScript_scripted : Scripted [.list,.break 0x1000] (inputLines (textOf listScript)) := by
  have lines : inputLines (textOf listScript) = [Command.line .list "list",[' '],Command.line (.break 0x1000) "b"] := by decide
  have first : Written .list (Command.line .list "list") :=
    written_line (show Command.Typable .list from trivial) (by decide)
  have last : Written (.break 0x1000) (Command.line (.break 0x1000) "b") :=
    written_line (show Command.Typable (.break 0x1000) from trivial) (by decide)
  have blank : Laid [' '] [' '] [] := .blank fun c member => member
  have idle : Idle [' '] := ⟨⟨[],blank,fun word impossible => by cases impossible⟩,by simp [Plain]⟩
  rw [lines]
  exact .command first (.idle idle (.command last .nil))

theorem scripts_carried_out_list : ∃ n calls t, main listWorld 9 ["-s","script"] [] n freshSession = .ended 0 calls t ∧
    calls <+: [.list,.break 0x1000,.exit] := by
  have carriedOut := scripts_carried_out listWorld 9 "script" listScript rfl _ listScript_scripted none [] freshSession
  obtain ⟨n,calls,ended,before⟩ := carriedOut
  exact ⟨n,calls,_,ended,before⟩

end Unixprog.Sdb
