import Unixprog.Library.Getopt
import Unixprog.Library.Plays

/-! main of hw2.c: hw2 sets LD_PRELOAD and LOGGER and runs a command. -/
namespace Unixprog.Hw2
open Plays Getopt

abbrev Str := List Char

/-- The calls main makes. What execvp reads of command_buf is `argv`; waitpid has WNOHANG. -/
inductive Query
  | setenv (name value : Str)
  | open (path : Str) (flags mode : BitVec 32)
  | fork
  | execvp (file : Option Str) (argv : List Str)
  | waitpid (pid : BitVec 32)
  | close (fd : BitVec 32)
  | fprintf (text : Str)

/-- execvp returns only if it fails. -/
@[reducible] def Query.Answer : Query → Type
  | .execvp _ _ => Option (BitVec 32)
  | _ => BitVec 32

/-- `outside` is an access past the end of command_buf, `waiting` and `unfinished` that the model
gave up on a loop. -/
inductive Stop
  | exited (code : Nat)
  | replaced
  | outside
  | waiting
  | unfinished

abbrev Op := Task Query Query.Answer Unit Stop

def ask (q : Query) : Op q.Answer := query q

def shared_lib : Str := "./logger.so".toList

def O_WRONLY : BitVec 32 := 1
def O_CREAT : BitVec 32 := 0x40
def O_TRUNC : BitVec 32 := 0x200
def S_IRWXU : BitVec 32 := 0x1c0

/-- `%d`. Any int fits in fd_buf. -/
def decimal (fd : BitVec 32) : Str := (toString fd.toInt).toList

def optstring : Str := ['p',':','o',':']

def usage {α : Type} : Op α := do
  let _ ← ask (.fprintf "usage: ./logger [-o file] [-p sopath] [--] cmd [cmd args ...]\n".toList)
  let _ ← ask (.fprintf "-p: set the path to logger.so, default = ./logger.so\n".toList)
  let _ ← ask (.fprintf "-o: print output to file, print to \"stderr\" if no file specified\n".toList)
  let _ ← ask (.fprintf "--: separate the arguments for logger and for the command\n".toList)
  stop (.exited 1)

def set_p (optarg : Str) : Op Unit := do
  let _ ← ask (.setenv "LD_PRELOAD".toList optarg)

def set_o (optarg : Str) : Op (BitVec 32) := do
  let fd : BitVec 32 ← ask (.open optarg (O_WRONLY ||| O_CREAT ||| O_TRUNC) S_IRWXU)
  let _ ← ask (.setenv "LOGGER".toList (decimal fd))
  pure fd

/-- The loop over the options, for so many rounds. It gives where getopt is in the end, and `fd`. -/
def options : Nat → Scan → BitVec 32 → Op (Scan × BitVec 32)
  | 0,_,_ => stop .unfinished
  | rounds+1,s,fd => match getopt optstring s with
    | (.finished,s) => pure (s,fd)
    | (.letter 'p' (some optarg),s) => do
      set_p optarg
      options rounds s fd
    | (.letter 'o' (some optarg),s) => do
      let fd ← set_o optarg
      options rounds s fd
    | _ => usage

def copy : List Str → Nat → Vector (Option Str) 32 → Op (Vector (Option Str) 32)
  | [],_,command_buf => pure command_buf
  | word::words,opt,command_buf =>
    if inside : opt < 32 then copy words (opt+1) (command_buf.set opt (some word)) else stop .outside

/-- The words of an array up to the first null pointer, `none` if it has no null pointer. -/
def terminated : List (Option Str) → Option (List Str)
  | [] => none
  | none::_ => some []
  | some word::rest => (terminated rest).map (word::·)

def wait : Nat → BitVec 32 → Op Unit
  | 0,_ => stop .waiting
  | rounds+1,pid => do
    let result : BitVec 32 ← ask (.waitpid pid)
    if result = -1 then pure () else wait rounds pid

def child (file : Option Str) (command_buf : List (Option Str)) : Op Int :=
  match terminated command_buf with
  | none => stop .outside
  | some argv => do
    let result : Option (BitVec 32) ← ask (.execvp file argv)
    match result with
    | none => stop .replaced
    | some result =>
      if result = -1 then do
        let _ ← ask (.fprintf "WRONG\n".toList)
        pure 0
      else pure 0

def parent (patience : Nat) (fd pid : BitVec 32) : Op Int := do
  wait patience pid
  if 0 < fd.toInt then do
    let _ ← ask (.close fd)
    pure 0
  else pure 0

/-- main from fork on. -/
def launch (patience : Nat) (fd : BitVec 32) (file : Option Str) (command_buf : List (Option Str)) : Op Int := do
  let pid : BitVec 32 ← ask .fork
  if pid.toInt < 0 then do
    let _ ← ask (.fprintf "fork failed.\n".toList)
    stop (.exited 1)
  else if pid = 0 then child file command_buf
  else parent patience fd pid

/-- main after its options. -/
def perform (patience : Nat) (s : Scan) (fd : BitVec 32) : Op Int := do
  let command_buf ← copy (s.argv.drop s.optind) 0 (.replicate 32 none)
  launch patience fd s.argv[s.optind]? command_buf.toList

/-- The parent waits for `patience` rounds at most. -/
def main (patience : Nat) (argv : List Str) : Op Int := do
  if argv.length < 2 then do
    let _ ← ask (.fprintf "no command given.\n".toList)
    stop (.exited 1)
  else do
    let _ ← ask (.setenv "LD_PRELOAD".toList shared_lib)
    let _ ← ask (.setenv "LOGGER".toList "2".toList)
    let (s,fd) ← options argv.length (.start argv) (-1)
    perform patience s fd

end Unixprog.Hw2
