import Unixprog.Library.Plays
import Unixprog.Libmini.SigSet

/-! The system call wrappers of libmini.c. The state is errno, a query is a call of one
of the stubs `sys_..`, and its answer is what the kernel returns. -/
namespace Unixprog.Libmini
open Words Plays

abbrev Str := List Char

inductive Restorer
  | address (a : Word)
  | myrt
deriving DecidableEq

structure Sigaction where
  sa_handler : Word
  sa_flags : BitVec 32
  sa_restorer : Restorer
  sa_mask : Word

/-- Pointers are addresses, sizes and counts are natural numbers; the buffer of
write is given by the characters in it. -/
inductive Sys
  | read (fd : BitVec 32) (buf : Word) (count : Nat)
  | write (fd : BitVec 32) (buf : Str) (count : Nat)
  | close (fd : BitVec 32)
  | mmap (addr : Word) (len : Nat) (prot flags fd : BitVec 32) (off : Int)
  | mprotect (addr : Word) (len : Nat) (prot : BitVec 32)
  | munmap (addr : Word) (len : Nat)
  | pipe (filedes : Word)
  | dup (filedes : BitVec 32)
  | dup2 (oldfd newfd : BitVec 32)
  | pause
  | nanosleep (rqtp rmtp : Word)
  | fork
  | getcwd (buf : Word) (size : Nat)
  | chdir (pathname : Word)
  | rename (oldname newname : Word)
  | mkdir (pathname : Word) (mode : BitVec 32)
  | rmdir (pathname : Word)
  | creat (pathname : Word) (mode : BitVec 32)
  | link (oldname newname : Word)
  | unlink (pathname : Word)
  | readlink (path buf : Word) (bufsz : Nat)
  | chmod (filename : Word) (mode : BitVec 32)
  | chown (filename : Word) (user group : BitVec 32)
  | umask (mask : BitVec 32)
  | gettimeofday (tv tz : Word)
  | getuid
  | getgid
  | setuid (uid : BitVec 32)
  | setgid (gid : BitVec 32)
  | geteuid
  | getegid
  | alarm (seconds : BitVec 32)
  | rt_sigprocmask (how : BitVec 32) (set oset : Word) (sigsetsize : Nat)
  | rt_sigpending (set : Word) (sigsetsize : Nat)
  | rt_sigaction (sig : BitVec 32) (act : Sigaction) (oact : Word) (sigsetsize : Nat)

/-- A null pointer is dereferenced, or an array is indexed out of bounds. -/
inductive Stop
  | fault
  | outOfBounds

abbrev Op := Task Sys (fun _ => Int) Int Stop

def sys (q : Sys) : Op Int := query q

def setErrno (n : Int) : Op Unit := update fun _ => n

/-- The types that the wrappers return; off_t, ssize_t and size_t are long long. -/
inductive CType
  | int
  | unsigned
  | longLong
  | pointer
deriving DecidableEq

def CType.convert : CType → Int → Int
  | .int,n => n.bmod (2^32)
  | .unsigned,n => n % 2^32
  | .longLong,n => n.bmod (2^64)
  | .pointer,n => n % 2^64

def CType.error : CType → Int
  | .int => -1
  | .unsigned => 2^32-1
  | .longLong => -1
  | .pointer => 0

def WRAPPER_RETval (type : CType) (ret : Int) : Op Int := do
  setErrno 0
  if ret < 0 then
    setErrno (-ret)
    pure (type.convert (-1))
  else pure (type.convert ret)

def WRAPPER_RETptr (ret : Int) : Op Int := do
  setErrno 0
  if ret < 0 then
    setErrno (-ret)
    pure 0
  else pure (CType.pointer.convert ret)

def retval (type : CType) (q : Sys) : Op Int := do
  let ret ← sys q
  WRAPPER_RETval type ret

def retptr (q : Sys) : Op Int := do
  let ret ← sys q
  WRAPPER_RETptr ret

def read (fd : BitVec 32) (buf : Word) (count : Nat) : Op Int := retval .longLong (.read fd buf count)

def write (fd : BitVec 32) (buf : Str) (count : Nat) : Op Int := retval .longLong (.write fd buf count)

def close (fd : BitVec 32) : Op Int := retval .int (.close fd)

def mmap (addr : Word) (len : Nat) (prot flags fd : BitVec 32) (off : Int) : Op Int :=
  retptr (.mmap addr len prot flags fd off)

def mprotect (addr : Word) (len : Nat) (prot : BitVec 32) : Op Int := retval .int (.mprotect addr len prot)

def munmap (addr : Word) (len : Nat) : Op Int := retval .int (.munmap addr len)

def pipe (filedes : Word) : Op Int := retval .int (.pipe filedes)

def dup (filedes : BitVec 32) : Op Int := retval .int (.dup filedes)

def dup2 (oldfd newfd : BitVec 32) : Op Int := retval .int (.dup2 oldfd newfd)

def pause : Op Int := retval .int .pause

def nanosleep (rqtp rmtp : Word) : Op Int := retval .int (.nanosleep rqtp rmtp)

def fork : Op Int := retval .int .fork

/-- What the system call returns, the length of the path, is returned as the pointer. -/
def getcwd (buf : Word) (size : Nat) : Op Int := retptr (.getcwd buf size)

def chdir (pathname : Word) : Op Int := retval .int (.chdir pathname)

def rename (oldname newname : Word) : Op Int := retval .int (.rename oldname newname)

def mkdir (pathname : Word) (mode : BitVec 32) : Op Int := retval .int (.mkdir pathname mode)

def rmdir (pathname : Word) : Op Int := retval .int (.rmdir pathname)

def creat (pathname : Word) (mode : BitVec 32) : Op Int := retval .int (.creat pathname mode)

def link (oldname newname : Word) : Op Int := retval .int (.link oldname newname)

def unlink (pathname : Word) : Op Int := retval .int (.unlink pathname)

def readlink (path buf : Word) (bufsz : Nat) : Op Int := retval .longLong (.readlink path buf bufsz)

def chmod (filename : Word) (mode : BitVec 32) : Op Int := retval .int (.chmod filename mode)

def chown (filename : Word) (user group : BitVec 32) : Op Int := retval .int (.chown filename user group)

def umask (mask : BitVec 32) : Op Int := retval .int (.umask mask)

def gettimeofday (tv tz : Word) : Op Int := retval .int (.gettimeofday tv tz)

def getuid : Op Int := retval .int .getuid

def getgid : Op Int := retval .int .getgid

def setuid (uid : BitVec 32) : Op Int := retval .int (.setuid uid)

def setgid (gid : BitVec 32) : Op Int := retval .int (.setgid gid)

def geteuid : Op Int := retval .int .geteuid

def getegid : Op Int := retval .int .getegid

def alarm (seconds : BitVec 32) : Op Int := retval .unsigned (.alarm seconds)

def sigprocmask (how : BitVec 32) (set oldset : Word) : Op Int := retval .int (.rt_sigprocmask how set oldset sizeofSigset)

def sigpending (set : Word) : Op Int := retval .int (.rt_sigpending set sizeofSigset)

def SA_RESTORER : BitVec 32 := 0x04000000

def sigaction (signum : BitVec 32) (act : Option Sigaction) (oldact : Word) : Op Int :=
  match act with
  | none => stop .fault
  | some act =>
    let act := {act with sa_flags := act.sa_flags ||| SA_RESTORER,sa_restorer := .myrt}
    retval .int (.rt_sigaction signum act oldact sizeofSigset)

/-! What a wrapper does with the kernel's answer. -/

def errnoAfter (ret : Int) : Int := if ret < 0 then -ret else 0

def CType.returned (type : CType) (ret : Int) : Int := if ret < 0 then type.error else type.convert ret

theorem convert_error (type : CType) (number : type ≠ .pointer) : type.convert (-1) = type.error := by
  cases type with
  | int => rfl
  | unsigned => rfl
  | longLong => rfl
  | pointer => exact absurd rfl number

theorem retval_run (type : CType) (number : type ≠ .pointer) (q : Sys) (before : Int) :
    (retval type q).run before = .ask q fun ret => .ret (.done (type.returned ret) (errnoAfter ret)) := by
  refine congrArg (Prog.ask q) (funext fun ret => ?_)
  by_cases failed : ret < 0
  · simp [WRAPPER_RETval,setErrno,CType.returned,errnoAfter,failed,convert_error type number]
  · simp [WRAPPER_RETval,setErrno,CType.returned,errnoAfter,failed]

theorem retptr_run (q : Sys) (before : Int) :
    (retptr q).run before = .ask q fun ret => .ret (.done (CType.pointer.returned ret) (errnoAfter ret)) := by
  refine congrArg (Prog.ask q) (funext fun ret => ?_)
  by_cases failed : ret < 0
  · simp [WRAPPER_RETptr,setErrno,CType.returned,CType.error,errnoAfter,failed]
  · simp [WRAPPER_RETptr,setErrno,CType.returned,errnoAfter,failed]

theorem plays_retval {α : Type} {type : CType} (number : type ≠ .pointer) {q : Sys} {next : Int → Op α} {before : Int}
    {play : List (Sigma fun _ : Sys => Int)} {ending : Ending Int Stop α} :
    Played ((retval type q >>= next).run before) play ending ↔
      ∃ ret rest, play = ⟨q,ret⟩::rest ∧ Played ((next (type.returned ret)).run (errnoAfter ret)) rest ending := by
  rw [then_run,retval_run type number]
  exact plays_ask

end Unixprog.Libmini
