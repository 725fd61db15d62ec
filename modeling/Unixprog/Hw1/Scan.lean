import Unixprog.Library.Aborts
import Unixprog.Library.CStrings

/-! What hw1 works on: the record it fills for each row, the outcomes of its system
calls on each process, its options. Strings are C strings without their NUL. -/
namespace Unixprog.Hw1
open CStrings Aborts

abbrev Str := List Char

def MAX_PID_SIZE : Nat := 20
def MAX_NAME_SIZE : Nat := 256

/-- `struct info`. A `name` of MAX_NAME_SIZE characters is one that readlink left
without a terminator. -/
structure Info where
  pid : Int
  procName : Str
  userName : Str
  fd : Str
  type : Str
  inode : Int
  name : Str
deriving DecidableEq

structure Stat where
  mode : BitVec 32
  ino : BitVec 64
  uid : BitVec 32

def S_IFMT : BitVec 32 := 0xf000
def S_IFSOCK : BitVec 32 := 0xc000
def S_IFREG : BitVec 32 := 0x8000
def S_IFDIR : BitVec 32 := 0x4000
def S_IFCHR : BitVec 32 := 0x2000
def S_IFIFO : BitVec 32 := 0x1000
def S_IRUSR : BitVec 32 := 0x100
def S_IWUSR : BitVec 32 := 0x80

inductive StatResult
  | ok (buffer : Stat)
  | denied
  | failed

/-- The link cwd, root or exe: what stat and readlink say of it. -/
structure Link where
  stat : StatResult
  target : Option Str

/-- An entry of the fd directory. A call that fails gives `none`. -/
structure Entry where
  name : Str
  target : Option Str
  stat : Option Stat
  lstat : Option Stat

structure FdDir where
  entered : Bool
  entries : List Entry

/-- An entry of `/proc` with everything that hw1 asks about it. The names of pids are
short, so that no path built from them outgrows its buffer. -/
structure Process where
  name : Str
  stat : Option Stat
  statFile : Option Str
  cwd : Link
  root : Link
  exe : Link
  maps : Option (List Str)
  fds : Option FdDir
  short : name.length ≤ MAX_PID_SIZE

structure World where
  getpwuid : BitVec 32 → Option Str
  /-- The matcher of a pattern that regcomp accepts. -/
  regcomp : Str → Option (Str → Bool)
  processes : Option (List Process)

structure Options where
  commRegex : Option Str
  typeFilter : Option Str
  fileRegex : Option Str

inductive Complaint
  | failTo (what : String)
  | unknownUser (uid : BitVec 32)
  | usage
  | invalidType
deriving DecidableEq

/-- `p` is the record that all functions share. `handed` lists the records given to
print_pinfo, `rows` the lines that it printed. -/
structure Scan where
  p : Info
  handed : List Info
  rows : List Str
  complaints : List Complaint

inductive Stop
  | exited (code : Nat)
  | undefined
deriving DecidableEq

abbrev Op := Proc Scan Stop

def complain (complaint : Complaint) : Op Unit := change fun s => {s with complaints := s.complaints ++ [complaint]}

def exit {α : Type} (code : Nat) : Op α := abort (.exited code)

def undefined {α : Type} : Op α := abort .undefined

def setInfo (f : Info → Info) : Op Unit := change fun s => {s with p := f s.p}

/-- A string that is read or copied: it must end inside its array. -/
def within (size : Nat) (text : Str) : Op Str := if text.length < size then pure text else undefined

def toInt (ino : BitVec 64) : Int := (ino.setWidth 32).toInt

def decimal (n : Int) : Str := (toString n).toList

end Unixprog.Hw1
