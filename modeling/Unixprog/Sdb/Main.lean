import Unixprog.Sdb.Debugger

/-! The command loop of main: how a line is read, cut into words and carried out. -/
namespace Unixprog.Sdb
open CStrings

def parseCmd (line : List Char) : Option (List Char × List (List Char)) :=
  match strtoks [' '] line.length line with
  | [] => none
  | cmd::tokens => some (cmd,tokens)

inductive Reaction
  | call (command : Command)
  | complain (text : String)
  | ignore

def dispatch (cmd : String) (tokens : List (List Char)) : Reaction :=
  if cmd = "break" ∨ cmd = "b" then
    match tokens with
    | addr::_ => .call (.break (strtoul16 addr))
    | [] => .complain "no addr is given"
  else if cmd = "cont" ∨ cmd = "c" then .call .cont
  else if cmd = "delete" then
    match tokens with
    | id::_ => .call (.delete (atoi id))
    | [] => .complain "no break-point-id is given"
  else if cmd = "disasm" ∨ cmd = "d" then
    match tokens with
    | addr::_ => .call (.disasm (strtoul16 addr))
    | [] => .complain "no addr is given"
  else if cmd = "dump" ∨ cmd = "x" then
    match tokens with
    | addr::_ => .call (.dump (strtoul16 addr))
    | [] => .complain "no addr is given."
  else if cmd = "exit" ∨ cmd = "q" then .call .exit
  else if cmd = "get" ∨ cmd = "g" then
    match tokens with
    | regName::_ => .call (.get (String.ofList regName))
    | [] => .complain "no register is given"
  else if cmd = "getregs" then .call .getregs
  else if cmd = "help" ∨ cmd = "h" then .call .help
  else if cmd = "list" ∨ cmd = "l" then .call .list
  else if cmd = "load" then
    match tokens with
    | fileName::_ => .call (.load (String.ofList fileName))
    | [] => .complain "no program path is given"
  else if cmd = "run" ∨ cmd = "r" then .call .run
  else if cmd = "vmmap" ∨ cmd = "m" then .call .vmmap
  else if cmd = "set" ∨ cmd = "s" then
    match tokens with
    | regName::val::_ => .call (.set (String.ofList regName) (strtoul16 val))
    | _ => .complain "Not enough input arguments"
  else if cmd = "si" then .call .si
  else if cmd = "start" then .call .start
  else .ignore

def react (line : List Char) : Reaction :=
  match parseCmd line with
  | none => .ignore
  | some (cmd,tokens) => dispatch (String.ofList cmd) tokens

def Reaction.quits : Reaction → Bool
  | .call .exit => true
  | _ => false

def Reaction.perform (w : World) (fuel : Nat) : Reaction → Op Unit
  | .call command => command.perform w fuel
  | .complain text => debug text
  | .ignore => pure ()

def obey (w : World) (fuel : Nat) (line : List Char) : Op Unit := (react line).perform w fuel

/-! Reading lines. -/

/-- What getline delivers, the newline included, and what is left; `none` at the end. -/
def getline : List Char → Option (List Char × List Char)
  | [] => none
  | input => some (input.takeWhile (· ≠ '\n') ++ (input.dropWhile (· ≠ '\n')).take 1,
      (input.dropWhile (· ≠ '\n')).drop 1)

/-- The line buffer after parse_cmd, up to the NUL that strtok wrote after the first word. -/
def afterParse (line : List Char) : List Char :=
  line.takeWhile (· = ' ') ++ ((strtok [' '] line).1.getD [])

inductive Mode
  | script
  | interactive
deriving DecidableEq

/-- The loop between two rounds: what is left of the input, the line buffer (`none`
while it is NULL), the prompts printed and the methods called so far. -/
structure Console where
  input : List Char
  line : Option (List Char)
  prompts : Nat
  calls : List Command
  session : Session

/-- A round leads to the next one, or the debugger ends, or it waits for the child, or
strlen reads a null pointer. -/
inductive Turn
  | again (console : Console)
  | ended (code : Nat) (calls : List Command) (session : Session)
  | waiting (calls : List Command)
  | undefined

def Reaction.calls : Reaction → List Command
  | .call command => [command]
  | _ => []

def Console.takeLine (w : World) (fuel : Nat) (c : Console) (line : List Char) : Turn :=
  let calls := c.calls ++ (react (chomp line)).calls
  match (obey w fuel (chomp line)).run c.session with
  | .done _ session => .again {c with line := some (afterParse (chomp line)),calls := calls,session := session}
  | .exited code session => .ended code calls session
  | .waiting => .waiting calls

/-- At the end of a script main calls quit. At the end of standard input getline fails
too, but the result is not looked at, and the old line is taken again. -/
def Console.round (w : World) (fuel : Nat) : Mode → Console → Turn
  | .script,c => match getline c.input with
    | none => match quit.run c.session with
      | .exited code session => .ended code (c.calls ++ [.exit]) session
      | _ => .waiting c.calls
    | some (line,rest) => {c with input := rest}.takeLine w fuel line
  | .interactive,c => match getline c.input with
    | none => match c.line with
      | none => .undefined
      | some line => {c with prompts := c.prompts+1}.takeLine w fuel line
    | some (line,rest) => {c with input := rest,prompts := c.prompts+1}.takeLine w fuel line

def Console.rounds (w : World) (fuel : Nat) (mode : Mode) : Nat → Console → Turn
  | 0,c => .again c
  | n+1,c => match c.round w fuel mode with
    | .again c => c.rounds w fuel mode n
    | turn => turn

def Console.start (session : Session) (input : List Char) : Console := ⟨input,none,0,[],session⟩

end Unixprog.Sdb
