import Unixprog.Library.Plays
import Unixprog.Library.Words

/-! What logger.c sees and does: the 18 functions it intercepts, the library calls
that it makes itself, and its static variables. -/
namespace Unixprog.Logger
open Words Plays

abbrev Str := List Char

inductive Fn
  | chmod | chown | close | creat | creat64 | fclose | fopen | fopen64 | fread | fwrite | open | open64
  | read | remove | rename | tmpfile | tmpfile64 | write
deriving DecidableEq

def Fn.name : Fn → String
  | .chmod => "chmod"
  | .chown => "chown"
  | .close => "close"
  | .creat => "creat"
  | .creat64 => "creat64"
  | .fclose => "fclose"
  | .fopen => "fopen"
  | .fopen64 => "fopen64"
  | .fread => "fread"
  | .fwrite => "fwrite"
  | .open => "open"
  | .open64 => "open64"
  | .read => "read"
  | .remove => "remove"
  | .rename => "rename"
  | .tmpfile => "tmpfile"
  | .tmpfile64 => "tmpfile64"
  | .write => "write"

inductive Stream
  | stderr
  | file (address : Word)
deriving DecidableEq

/-- A path argument, `none` when the pointer points to no string. -/
abbrev Path := Option Str

/-- A call of an intercepted function. Buffers are addresses, sizes and counts are
natural numbers, `mode` is what stands in the third argument's place. -/
inductive Call
  | chmod (path : Path) (mode : BitVec 32)
  | chown (path : Path) (owner group : BitVec 32)
  | close (fildes : Int)
  | creat (path : Path) (mode : BitVec 32)
  | creat64 (path : Path) (mode : BitVec 32)
  | fclose (stream : Stream)
  | fopen (pathname : Path) (mode : Str)
  | fopen64 (pathname : Path) (mode : Str)
  | fread (ptr : Word) (size nmemb : Nat) (stream : Stream)
  | fwrite (ptr : Word) (size nmemb : Nat) (stream : Stream)
  | open (pathname : Path) (flags mode : BitVec 32)
  | open64 (pathname : Path) (flags mode : BitVec 32)
  | read (fildes : Int) (buf : Word) (nbyte : Nat)
  | remove (pathname : Path)
  | rename (old new : Path)
  | tmpfile
  | tmpfile64
  | write (fildes : Int) (buf : Word) (nbyte : Nat)
deriving DecidableEq

/-- What realpath answers; `left` is what it has stored of the path where it fails. -/
inductive Resolution
  | path (name : Str)
  | failed (left : Str)
  | fault

/-- The calls that leave logger.c. `logger` is `atoi(getenv("LOGGER"))`, `peek` reads
a byte of the caller's buffer, `real` calls the underlying function. -/
inductive Query
  | dlopen
  | dlsym (f : Fn)
  | logger
  | getpid
  | realpath (path : Path)
  | fileno (stream : Stream)
  | readlink (path : Str)
  | dprintf (fd : Int) (text : Str)
  | fprintf (text : Str)
  | peek (address : Word)
  | real (call : Call)

/-- `none` stands for a null pointer, a failure or a fault. -/
@[reducible] def Query.Value : Query → Type
  | .dlopen => Bool
  | .dlsym _ => Bool
  | .logger => Option Int
  | .getpid => Nat
  | .realpath _ => Resolution
  | .fileno _ => Int
  | .readlink _ => Option Str
  | .dprintf _ _ => Int
  | .fprintf _ => Unit
  | .peek _ => Option Byte
  | .real _ => Int

structure Reply (α : Type) where
  value : α
  errno : Option Int

abbrev Answer (q : Query) : Type := Reply q.Value

/-- The variables `fd` and `chmod_o` .. `write_o`, these by which of them are not NULL. -/
structure Statics where
  fd : Int
  found : List Fn

def Statics.initial : Statics := ⟨-1,[]⟩

inductive Stop
  | exited (code : Nat)
  | undefined

abbrev Op := Task Query Answer Statics Stop

def ask (q : Query) : Op (Answer q) := query q

def exit {α : Type} (code : Nat) : Op α := stop (.exited code)

def undefined {α : Type} : Op α := stop .undefined

end Unixprog.Logger
