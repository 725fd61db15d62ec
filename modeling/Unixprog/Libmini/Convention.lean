import Unixprog.Libmini.Open

/-! What the system call wrappers return and leave in errno, those in C and the one in
assembly. -/
namespace Unixprog.Libmini
open Words X86 Plays

/-- A call of a wrapper written in C. -/
inductive Wrapped
  | read (fd : BitVec 32) (buf : Word) (count : Nat)
  | write (fd : BitVec 32) (buf : Str) (count : Nat)
  | close (fd : BitVec 32)
  | mmap (addr : Word) (len : Nat) (prot flags fd : BitVec 32) (off : Int)
  | mprotect (addr : Word) (len : Nat) (prot : BitVec 32)
  | munmap (addr : Word) (len : Nat)
  | pipe (filedes : Word)
  | dup (filedes : BitVec 32)
  | dup2 (oldfd newfd : BitVec 32)
  | pause
  | nanosleep (rqtp rmtp : Word)
  | fork
  | getcwd (buf : Word) (size : Nat)
  | chdir (pathname : Word)
  | rename (oldname newname : Word)
  | mkdir (pathname : Word) (mode : BitVec 32)
  | rmdir (pathname : Word)
  | creat (pathname : Word) (mode : BitVec 32)
  | link (oldname newname : Word)
  | unlink (pathname : Word)
  | readlink (path buf : Word) (bufsz : Nat)
  | chmod (filename : Word) (mode : BitVec 32)
  | chown (filename : Word) (user group : BitVec 32)
  | umask (mask : BitVec 32)
  | gettimeofday (tv tz : Word)
  | getuid
  | getgid
  | setuid (uid : BitVec 32)
  | setgid (gid : BitVec 32)
  | geteuid
  | getegid
  | alarm (seconds : BitVec 32)
  | sigprocmask (how : BitVec 32) (set oldset : Word)
  | sigpending (set : Word)
  | sigaction (signum : BitVec 32) (act : Option Sigaction) (oldact : Word)

def Wrapped.perform : Wrapped → Op Int
  | .read fd buf count => Libmini.read fd buf count
  | .write fd buf count => Libmini.write fd buf count
  | .close fd => Libmini.close fd
  | .mmap addr len prot flags fd off => Libmini.mmap addr len prot flags fd off
  | .mprotect addr len prot => Libmini.mprotect addr len prot
  | .munmap addr len => Libmini.munmap addr len
  | .pipe filedes => Libmini.pipe filedes
  | .dup filedes => Libmini.dup filedes
  | .dup2 oldfd newfd => Libmini.dup2 oldfd newfd
  | .pause => Libmini.pause
  | .nanosleep rqtp rmtp => Libmini.nanosleep rqtp rmtp
  | .fork => Libmini.fork
  | .getcwd buf size => Libmini.getcwd buf size
  | .chdir pathname => Libmini.chdir pathname
  | .rename oldname newname => Libmini.rename oldname newname
  | .mkdir pathname mode => Libmini.mkdir pathname mode
  | .rmdir pathname => Libmini.rmdir pathname
  | .creat pathname mode => Libmini.creat pathname mode
  | .link oldname newname => Libmini.link oldname newname
  | .unlink pathname => Libmini.unlink pathname
  | .readlink path buf bufsz => Libmini.readlink path buf bufsz
  | .chmod filename mode => Libmini.chmod filename mode
  | .chown filename user group => Libmini.chown filename user group
  | .umask mask => Libmini.umask mask
  | .gettimeofday tv tz => Libmini.gettimeofday tv tz
  | .getuid => Libmini.getuid
  | .getgid => Libmini.getgid
  | .setuid uid => Libmini.setuid uid
  | .setgid gid => Libmini.setgid gid
  | .geteuid => Libmini.geteuid
  | .getegid => Libmini.getegid
  | .alarm seconds => Libmini.alarm seconds
  | .sigprocmask how set oldset => Libmini.sigprocmask how set oldset
  | .sigpending set => Libmini.sigpending set
  | .sigaction signum act oldact => Libmini.sigaction signum act oldact

/-- The system call that the wrapper is for; sigaction does not come to it with a null `act`. -/
def Wrapped.request : Wrapped → Option Sys
  | .read fd buf count => some (.read fd buf count)
  | .write fd buf count => some (.write fd buf count)
  | .close fd => some (.close fd)
  | .mmap addr len prot flags fd off => some (.mmap addr len prot flags fd off)
  | .mprotect addr len prot => some (.mprotect addr len prot)
  | .munmap addr len => some (.munmap addr len)
  | .pipe filedes => some (.pipe filedes)
  | .dup filedes => some (.dup filedes)
  | .dup2 oldfd newfd => some (.dup2 oldfd newfd)
  | .pause => some .pause
  | .nanosleep rqtp rmtp => some (.nanosleep rqtp rmtp)
  | .fork => some .fork
  | .getcwd buf size => some (.getcwd buf size)
  | .chdir pathname => some (.chdir pathname)
  | .rename oldname newname => some (.rename oldname newname)
  | .mkdir pathname mode => some (.mkdir pathname mode)
  | .rmdir pathname => some (.rmdir pathname)
  | .creat pathname mode => some (.creat pathname mode)
  | .link oldname newname => some (.link oldname newname)
  | .unlink pathname => some (.unlink pathname)
  | .readlink path buf bufsz => some (.readlink path buf bufsz)
  | .chmod filename mode => some (.chmod filename mode)
  | .chown filename user group => some (.chown filename user group)
  | .umask mask => some (.umask mask)
  | .gettimeofday tv tz => some (.gettimeofday tv tz)
  | .getuid => some .getuid
  | .getgid => some .getgid
  | .setuid uid => some (.setuid uid)
  | .setgid gid => some (.setgid gid)
  | .geteuid => some .geteuid
  | .getegid => some .getegid
  | .alarm seconds => some (.alarm seconds)
  | .sigprocmask how set oldset => some (.rt_sigprocmask how set oldset sizeofSigset)
  | .sigpending set => some (.rt_sigpending set sizeofSigset)
  | .sigaction signum act oldact => act.map fun act =>
    .rt_sigaction signum {act with sa_flags := act.sa_flags ||| SA_RESTORER,sa_restorer := .myrt} oldact sizeofSigset

inductive Wrapper
  | «open»
  | inC (call : Wrapped)

def Wrapped.type : Wrapped → CType
  | .read .. => .longLong
  | .write .. => .longLong
  | .readlink .. => .longLong
  | .mmap .. => .pointer
  | .getcwd .. => .pointer
  | .alarm .. => .unsigned
  | _ => .int

/-- The error value of the C interface. -/
def Wrapper.error : Wrapper → Int
  | .open => -1
  | .inC call => call.type.error

def Wrapped.identifies : Wrapped → Bool
  | .getuid => true
  | .getgid => true
  | .geteuid => true
  | .getegid => true
  | _ => false

/-- The result of the C interface where the system call succeeds with `ret`. An id is an int there. -/
def Wrapper.result (ret : Int) : Wrapper → Int
  | .open => ret
  | .inC (.getcwd buf _) => buf.toNat
  | .inC call => if call.identifies then CType.int.convert ret else ret

/-- The least and the greatest value with which the system call succeeds. -/
def Wrapper.range : Wrapper → Int × Int
  | .open => (0,2^31-1)
  | .inC call => match call with
    | .read _ _ count => (0,min count 0x7ffff000)
    | .write _ _ count => (0,min count 0x7ffff000)
    | .readlink _ _ bufsz => (0,min bufsz 0x7fffffff)
    | .mmap .. => (0,2^63-1)
    | .dup .. => (0,2^31-1)
    | .dup2 .. => (0,2^31-1)
    | .creat .. => (0,2^31-1)
    | .fork => (0,2^31-1)
    | .getcwd .. => (2,4096)
    | .umask .. => (0,0x1ff)
    | .alarm .. => (0,2^32-1)
    | call => if call.identifies then (0,2^32-2) else (0,0)

/-- sigaction does not come to its system call with a null `act`. -/
def Wrapper.asks : Wrapper → Bool
  | .inC (.sigaction _ none _) => false
  | _ => true

/-- The kernel may return `ret` to the wrapper. -/
structure May (w : Wrapper) (ret : Int) : Prop where
  asks : w.asks = true
  possible : -4095 ≤ ret ∧ ret ≤ -1 ∨ w.range.1 ≤ ret ∧ ret ≤ w.range.2

/-- Where its system call returns `ret`, the wrapper returns `value` with errno at `errno`; one in C makes
this call and no other. -/
def Wrapper.Gives (ret value errno : Int) : Wrapper → Prop
  | .open => ∀ (κ : Type) (P : Listing) (K : Kernel κ) (L : OpenLinked P) (s : Machine κ), OpenEntered L K s ret →
    ∃ t, Reaches P K (fun _ => True) s t ∧ OpenReturned L s t value errno
  | .inC call => ∃ q, call.request = some q ∧
    ∀ before, (call.perform.run before).play (fun _ => ret) = ([⟨q,ret⟩],.done value errno)

structure Convention (w : Wrapper) (ret : Int) : Prop where
  failed : ret < 0 → w.Gives ret w.error (-ret)
  succeeded : 0 ≤ ret → w.Gives ret (w.result ret) 0 ∧ w.result ret ≠ w.error

/-- What getcwd, mmap and alarm have to be given to keep the convention. -/
def Wrapper.Exact (ret : Int) : Wrapper → Prop
  | .inC (.getcwd buf _) => ret < 0 ∨ ret = buf.toNat
  | .inC (.mmap ..) => ret ≠ 0
  | .inC (.alarm ..) => ret ≠ 2^32-1
  | _ => True

theorem wrapped_run (call : Wrapped) (asks : (Wrapper.inC call).asks = true) : ∃ q, call.request = some q ∧ ∀ before,
    call.perform.run before = .ask q fun ret => .ret (.done (call.type.returned ret) (errnoAfter ret)) := by
  cases call with
  | mmap => exact ⟨_,rfl,retptr_run _⟩
  | getcwd => exact ⟨_,rfl,retptr_run _⟩
  | sigaction signum act oldact =>
    cases act with
    | none => cases asks
    | some act => exact ⟨_,rfl,retval_run _ (by decide) _⟩
  | _ => exact ⟨_,rfl,retval_run _ (by decide) _⟩

theorem inC_gives (call : Wrapped) (asks : (Wrapper.inC call).asks = true) (ret value errno : Int) :
    (Wrapper.inC call).Gives ret value errno ↔ value = call.type.returned ret ∧ errno = errnoAfter ret := by
  obtain ⟨q,named,runs⟩ := wrapped_run call asks
  simp only [Wrapper.Gives,runs,Prog.play]
  constructor
  · rintro ⟨_,_,gives⟩
    cases gives 0
    exact ⟨rfl,rfl⟩
  · rintro ⟨rfl,rfl⟩
    exact ⟨q,named,fun _ => rfl⟩

theorem inC_convention (call : Wrapped) (asks : (Wrapper.inC call).asks = true) (ret : Int) :
    Convention (.inC call) ret ↔ (0 ≤ ret → (Wrapper.inC call).result ret = call.type.convert ret ∧
      (Wrapper.inC call).result ret ≠ (Wrapper.inC call).error) := by
  have parts : Convention (.inC call) ret ↔ (ret < 0 → (Wrapper.inC call).Gives ret (Wrapper.inC call).error (-ret)) ∧
      (0 ≤ ret → (Wrapper.inC call).Gives ret ((Wrapper.inC call).result ret) 0 ∧
        (Wrapper.inC call).result ret ≠ (Wrapper.inC call).error) :=
    ⟨fun convention => ⟨convention.failed,convention.succeeded⟩,fun both => ⟨both.1,both.2⟩⟩
  rw [parts]
  simp only [inC_gives call asks,CType.returned,errnoAfter]
  constructor
  · rintro ⟨_,succeeded⟩ fine
    obtain ⟨⟨value,_⟩,other⟩ := succeeded fine
    exact ⟨by rw [value,if_neg (not_lt.mpr fine)],other⟩
  · intro exact
    refine ⟨fun failed => ?_,fun fine => ?_⟩
    · rw [if_pos failed,if_pos failed]
      exact ⟨rfl,rfl⟩
    · rw [if_neg (not_lt.mpr fine),if_neg (not_lt.mpr fine)]
      exact ⟨⟨(exact fine).1,rfl⟩,(exact fine).2⟩

theorem convert_int {n : Int} (small : 0 ≤ n ∧ n < 2^31) : CType.int.convert n = n :=
  Int.bmod_eq_of_le (by omega) (by omega)

theorem convert_longLong {n : Int} (small : 0 ≤ n ∧ n < 2^63) : CType.longLong.convert n = n :=
  Int.bmod_eq_of_le (by omega) (by omega)

theorem id_convert {n : Int} (small : 0 ≤ n ∧ n < 2^32-1) : CType.int.convert n ≠ -1 := by
  rw [CType.convert,Int.bmod_def]
  split <;> omega

theorem open_convention (ret : Int) (may : May .open ret) : Convention .open ret := by
  obtain ⟨_,possible⟩ := may
  simp only [Wrapper.range] at possible
  refine ⟨fun failed κ P K L s entered => ?_,fun fine => ⟨fun κ P K L s entered => ?_,?_⟩⟩
  · obtain ⟨t,reached,returned⟩ := open_returns L s ret entered (by omega)
    refine ⟨t,reached,?_⟩
    simpa [CType.returned,CType.error,Wrapper.error,errnoAfter,failed] using returned
  · obtain ⟨t,reached,returned⟩ := open_returns L s ret entered (by omega)
    refine ⟨t,reached,?_⟩
    have value := convert_int (n := ret) (by omega)
    simpa [CType.returned,Wrapper.result,errnoAfter,not_lt.mpr fine,value] using returned
  · simp only [Wrapper.result,Wrapper.error]
    omega

/-- Every wrapper keeps the convention on every answer of the kernel, but getcwd where the
length is not the buffer, mmap at address 0 and alarm where 2^32-1 seconds were left. -/
theorem convention_iff (w : Wrapper) (ret : Int) (may : May w ret) : Convention w ret ↔ w.Exact ret := by
  cases w with
  | «open» => exact iff_of_true (open_convention ret may) trivial
  | inC call =>
    obtain ⟨asks,possible⟩ := may
    rw [inC_convention call asks]
    cases call with
    | getcwd buf size =>
      simp only [Wrapper.range,Wrapper.result,Wrapper.error,Wrapper.Exact,Wrapped.type,CType.convert,CType.error] at possible ⊢
      omega
    | mmap =>
      simp only [Wrapper.range,Wrapper.result,Wrapper.error,Wrapper.Exact,Wrapped.type,Wrapped.identifies,CType.convert,
        CType.error,Bool.false_eq_true,if_false] at possible ⊢
      omega
    | alarm =>
      simp only [Wrapper.range,Wrapper.result,Wrapper.error,Wrapper.Exact,Wrapped.type,Wrapped.identifies,CType.convert,
        CType.error,Bool.false_eq_true,if_false] at possible ⊢
      omega
    | read | write | readlink =>
      simp only [Wrapper.range] at possible
      refine iff_of_true (fun fine => ?_) trivial
      have positive : ret ≠ -1 := by omega
      exact ⟨(convert_longLong (n := ret) (by omega)).symm,positive⟩
    | getuid | getgid | geteuid | getegid =>
      simp only [Wrapper.range,Wrapped.identifies,if_true] at possible
      exact iff_of_true (fun fine => ⟨rfl,id_convert (n := ret) (by omega)⟩) trivial
    | _ =>
      simp only [Wrapper.range,Wrapped.identifies,Bool.false_eq_true,if_false] at possible
      refine iff_of_true (fun fine => ?_) trivial
      have positive : ret ≠ -1 := by omega
      exact ⟨(convert_int (n := ret) (by omega)).symm,positive⟩

def sampleListing : Listing := fun a =>
  let routine := match a.toNat/0x1000 with
    | 1 => Libmini.open 0x2000 0x9000 0x1003 0x1008 0x100a
    | 2 => plain sysOpen
    | _ => []
  ((codes routine)[a.toNat%0x1000]?).map fun i => (i,a+1)

def sampleOpen : OpenLinked sampleListing where
  «open» := 0x1000
  sys_open := 0x2000
  open_error := 0x1003
  open_success := 0x1008
  open_quit := 0x100a
  got := 0x9000
  errno := 0xa000
  openLists := by repeat (first | exact trivial | refine ⟨_,rfl,?_⟩ | refine ⟨rfl,?_⟩)
  stubLists := by repeat (first | exact trivial | refine ⟨_,rfl,?_⟩)

def sampleMachine : Machine Unit where
  core := {
    rip := 0x1000
    reg r := if r = .rsp then 0x7000 else 0
    mem := put (fun _ => 0) 0x9000 0xa000
    kern := ()}
  flags := ⟨false,false,false⟩

/-- A kernel without the file. -/
def missing : Kernel Unit := fun _ m _ => ⟨-2,0,0,m,()⟩

theorem sample_entered : OpenEntered sampleOpen missing sampleMachine (-2) := by
  constructor
  case rip => rfl
  case slot => exact load_put _ _ _
  case got => exact apart_same 0x6000 0x3000 0xff0 8 16 (by omega) (by omega) (by omega)
  case errno => exact apart_same 0x6000 0x4000 0x1000 8 8 (by omega) (by omega) (by omega)
  case silent => exact fun _ _ _ _ => rfl
  case returns => exact fun _ _ _ => rfl

theorem convention_iff_missing : ∃ t, Reaches sampleListing missing (fun _ => True) sampleMachine t ∧
    OpenReturned sampleOpen sampleMachine t (-1) 2 :=
  ((convention_iff .open (-2) ⟨rfl,.inl (by decide)⟩).mpr trivial).failed (by decide) Unit sampleListing missing
    sampleOpen sampleMachine sample_entered

/-- In the root directory the system call returns 2, and this comes back as the pointer. -/
theorem getcwd_returns_length : ¬ Convention (.inC (.getcwd 0x1000 4096)) 2 := by
  rw [inC_convention _ rfl]
  intro exact
  exact absurd (exact (by decide)).1 (by decide)

end Unixprog.Libmini
