import Unixprog.Library.Words
import Mathlib.Data.PNat.Notation
import Std.Data.ExtTreeMap

/-! The state of one debugger session: the fields of class `SDB`, the traced
child as the kernel sees it, and what was printed. Everything outside the
repository's code is a field of `World`. -/
namespace Unixprog.Sdb
open Words

structure Registers where
  rax : Word
  rbx : Word
  rcx : Word
  rdx : Word
  r8 : Word
  r9 : Word
  r10 : Word
  r11 : Word
  r12 : Word
  r13 : Word
  r14 : Word
  r15 : Word
  rdi : Word
  rsi : Word
  rbp : Word
  rsp : Word
  rip : Word
  eflags : Word
deriving DecidableEq

structure Child where
  mem : Memory
  regs : Registers

inductive Request
  | singlestep
  | cont
deriving DecidableEq

inductive Ending
  | exited (code : Nat)
  | signaled (signal : Nat)
deriving DecidableEq

inductive Report
  | ended (ending : Ending)
  | stopped (signal : Nat) (child : Child)

inductive Status
  | ended (ending : Ending)
  | stopped (signal : Nat)
deriving DecidableEq

def Report.status : Report → Status
  | .ended ending => .ended ending
  | .stopped signal _ => .stopped signal

inductive Process
  | unborn
  | stopped (pid : Nat) (child : Child)
  | resumed (pid : Nat) (request : Request) (child : Child)
  | ended (pid : Nat) (ending : Ending)

def SIGTRAP : Nat := 5
def SIGTERM : Nat := 15

structure Insn where
  address : Word
  bytes : List Byte
  mnemonic : String
  opStr : String

/-- What sdb prints, one constructor for each format. -/
inductive Message
  | debug (text : String)
  | error (text : String) (line : Nat)
  | print (text : String)
  | resetBp (addr : Word)
  | breakpointAt
  | insnRow (insn : Insn)
  | listRow (counter : Nat) (addr : Word)
  | dumpRow (addr : Word) (data : List Byte)
  | regTable (regs : Registers)
  | regValue (name : String) (value : Word)
  | mapStart (start : Word)
  | mapEnd (stop : Word)
  | mapPerms (perms : List Char)
  | mapOffset (offset : Word)
  | mapPath (path : List Char)

inductive State
  | notLoaded
  | loaded
  | running
deriving DecidableEq

abbrev AddrList := Std.ExtTreeMap Word Word

instance wordOrder : Std.TransCmp (compare : Word → Word → Ordering) := inferInstance

/-- `Elf64_Ehdr` and `Elf64_Shdr` are 64 bytes each. -/
abbrev Record := Vector Byte 64

structure SDB where
  elfHeader : Record
  sectHeader : Record
  addrList : AddrList
  preAddr : Word
  preVal : Word
  state : State
  codeSize : Nat
  pid : Nat
  programName : String
  codeText : Option (List Byte)

/-- `sent` lists the signals the debugger sent with kill, `statuses` the wait
statuses it was told, oldest first. `opened` counts the streams that its methods
have open. -/
structure Session where
  sdb : SDB
  process : Process
  clock : Nat
  out : List Message
  sent : List (Nat × Nat)
  statuses : List Status
  opened : Nat

/-- The code that is not in the repository. `resume fuel clock request child` is
what waitpid reports on a child let run by `request`, `none` while it still runs
after `fuel`; the clock counts forks and resumptions, so that a world can answer
the same request differently each time. `malloc` says which sizes are granted;
`i` bytes behind the start of a buffer lies `heap i`, if `mapped i` says that it can
be read. `csReads` is how many of the bytes it is given Capstone looks at. -/
structure World where
  file : String → Option (List Byte)
  /-- The streams the methods can have open at a time. -/
  streams : Nat
  fork : Nat → Option ℕ+
  exec : String → Option Child
  resume : Nat → Nat → Request → Child → Option Report
  /-- Waiting longer does not change what is reported. -/
  steady : ∀ fuel more clock request child report, fuel ≤ more →
    resume fuel clock request child = some report → resume more clock request child = some report
  maps : Nat → Option (List (List Char))
  csOpen : Bool
  csDisasm : List Byte → Word → Nat → List Insn
  csReads : List Byte → Word → Nat → Nat
  malloc : Nat → Bool
  heap : Nat → Byte
  mapped : Nat → Bool
  /-- The calls of si by check_process that the stack has room for, one in another. -/
  stack : Nat

/-- The constructor. The headers and the name are not initialised there. -/
def SDB.create (elfHeader sectHeader : Record) (programName : String) : SDB where
  elfHeader := elfHeader
  sectHeader := sectHeader
  addrList := ∅
  preAddr := 0
  preVal := 0
  state := .notLoaded
  codeSize := 0
  pid := 0
  programName := programName
  codeText := none

def Session.create (elfHeader sectHeader : Record) (programName : String) : Session :=
  ⟨SDB.create elfHeader sectHeader programName,.unborn,0,[],[],[],0⟩

/-- The child that ptrace reaches under the pid the debugger holds. -/
def Session.tracee (s : Session) : Option Child :=
  match s.process with
  | .stopped pid child => if pid = s.sdb.pid then some child else none
  | _ => none

/-! Operations: a method returns, ends the debugger through `exit`, or still
waits for the child. -/

inductive Outcome (α : Type)
  | done (value : α) (after : Session)
  | exited (code : Nat) (after : Session)
  | waiting

structure Op (α : Type) where
  run : Session → Outcome α

section Operations
variable {α β : Type}

def Outcome.andThen : Outcome α → (α → Op β) → Outcome β
  | .done value after, next => (next value).run after
  | .exited code after, _ => .exited code after
  | .waiting, _ => .waiting

instance : Monad Op where
  pure value := ⟨fun s => .done value s⟩
  bind first next := ⟨fun s => (first.run s).andThen next⟩

def read : Op Session := ⟨fun s => .done s s⟩

def modify (f : Session → Session) : Op Unit := ⟨fun s => .done () (f s)⟩

def exit (code : Nat) : Op α := ⟨fun s => .exited code s⟩

/-- A call that has not returned. -/
def wait : Op α := ⟨fun _ => .waiting⟩

def Session.say (s : Session) (message : Message) : Session := {s with out := s.out ++ [message]}

def say (message : Message) : Op Unit := modify fun s => s.say message

def debug (text : String) : Op Unit := say (.debug text)

def error (text : String) (line : Nat) : Op α := do
  say (.error text line)
  exit 1

/-- SIGSEGV, as a shell reports it. -/
def crash : Op α := exit 139

/-- What fopen gives of what is there. -/
def Session.opens (s : Session) (w : World) (content : Option α) : Option α :=
  if s.opened < w.streams then content else none

def fopen (w : World) (content : Option α) : Op (Option α) := ⟨fun s =>
  match s.opens w content with
  | none => .done none s
  | some content => .done (some content) {s with opened := s.opened+1}⟩

def fclose : Op Unit := modify fun s => {s with opened := s.opened-1}

@[simp] theorem andThen_done (value : α) (after : Session) (next : α → Op β) :
    (Outcome.done value after).andThen next = (next value).run after := rfl

@[simp] theorem andThen_exited (code : Nat) (after : Session) (next : α → Op β) :
    (Outcome.exited code after).andThen next = .exited code after := rfl

@[simp] theorem andThen_waiting (next : α → Op β) :
    (Outcome.waiting : Outcome α).andThen next = .waiting := rfl

@[simp] theorem pure_run (value : α) (s : Session) : (pure value : Op α).run s = .done value s := rfl

@[simp] theorem bind_run (first : Op α) (next : α → Op β) (s : Session) :
    (first >>= next).run s = (first.run s).andThen next := rfl

@[simp] theorem read_run (s : Session) : read.run s = .done s s := rfl

@[simp] theorem modify_run (f : Session → Session) (s : Session) :
    (modify f).run s = .done () (f s) := rfl

@[simp] theorem exit_run (code : Nat) (s : Session) : (exit code : Op α).run s = .exited code s := rfl

@[simp] theorem wait_run (s : Session) : (wait : Op α).run s = .waiting := rfl

@[simp] theorem say_run (message : Message) (s : Session) :
    (say message).run s = .done () (s.say message) := rfl

@[simp] theorem debug_run (text : String) (s : Session) :
    (debug text).run s = .done () (s.say (.debug text)) := rfl

@[simp] theorem crash_run (s : Session) : (crash : Op α).run s = .exited 139 s := rfl

@[simp] theorem fclose_run (s : Session) : fclose.run s = .done () {s with opened := s.opened-1} := rfl

theorem opens_some {w : World} {content : Option α} {s : Session} {a : α} :
    s.opens w content = some a ↔ s.opened < w.streams ∧ content = some a := by
  unfold Session.opens
  split
  next room => exact (and_iff_right room).symm
  next full => simp [full]

theorem fopen_none {w : World} {content : Option α} {s : Session} (missing : s.opens w content = none) :
    (fopen w content).run s = .done none s := by simp only [fopen,missing]

theorem fopen_some {w : World} {content : Option α} {s : Session} {a : α} (found : s.opens w content = some a) :
    (fopen w content).run s = .done (some a) {s with opened := s.opened+1} := by simp only [fopen,found]

@[simp] theorem error_run (text : String) (line : Nat) (s : Session) :
    (error text line : Op α).run s = .exited 1 (s.say (.error text line)) := rfl

@[simp] theorem ite_run (c : Prop) [Decidable c] (first second : Op α) (s : Session) :
    (if c then first else second).run s = if c then first.run s else second.run s := by
  split <;> rfl

theorem bind_done (first : Op α) (next : α → Op β) (s t : Session) (b : β)
    (ok : (first >>= next).run s = .done b t) :
    ∃ a u, first.run s = .done a u ∧ (next a).run u = .done b t := by
  rw [bind_run] at ok
  cases ran : first.run s with
  | done a u => rw [ran] at ok; exact ⟨a,u,rfl,ok⟩
  | exited code u => simp [ran] at ok
  | waiting => simp [ran] at ok

end Operations

@[simp] theorem say_sdb (s : Session) (message : Message) : (s.say message).sdb = s.sdb := rfl

@[simp] theorem say_process (s : Session) (message : Message) : (s.say message).process = s.process := rfl

@[simp] theorem say_clock (s : Session) (message : Message) : (s.say message).clock = s.clock := rfl

@[simp] theorem say_statuses (s : Session) (message : Message) : (s.say message).statuses = s.statuses := rfl

@[simp] theorem say_opened (s : Session) (message : Message) : (s.say message).opened = s.opened := rfl

@[simp] theorem say_tracee (s : Session) (message : Message) : (s.say message).tracee = s.tracee := rfl

theorem tracee_congr {s t : Session} (process : t.process = s.process) (pid : t.sdb.pid = s.sdb.pid) :
    t.tracee = s.tracee := by
  rw [Session.tracee,Session.tracee,process,pid]

theorem tracee_some (s : Session) (child : Child) :
    s.tracee = some child ↔ s.process = .stopped s.sdb.pid child := by
  unfold Session.tracee
  split
  next pid found stopped =>
    rw [stopped]
    by_cases same : pid = s.sdb.pid <;> simp [same]
  next other =>
    constructor
    · intro impossible
      cases impossible
    · intro stopped
      exact absurd stopped (other _ _)

/-! The requests of ptrace and waitpid. A request on a pid that is no stopped
tracee fails; PEEKTEXT then returns -1, as it does on an unmapped word. -/

def Session.withChild (s : Session) (child : Child) : Session :=
  {s with process := .stopped s.sdb.pid child}

def peekText (addr : Word) : Op Word :=
  ⟨fun s => .done ((s.tracee.bind fun child => fetch child.mem addr).getD (-1)) s⟩

/-- True when the request returns 0. -/
def pokeText (addr data : Word) : Op Bool := ⟨fun s =>
  match s.tracee with
  | none => .done false s
  | some child => match store child.mem addr data with
    | none => .done false s
    | some mem => .done true (s.withChild {child with mem := mem})⟩

def getRegs : Op (Option Registers) := ⟨fun s => .done (s.tracee.map (·.regs)) s⟩

def setRegs (regs : Registers) : Op Bool := ⟨fun s =>
  match s.tracee with
  | none => .done false s
  | some child => .done true (s.withChild {child with regs := regs})⟩

def setOptions : Op Bool := ⟨fun s => .done s.tracee.isSome s⟩

def letRun (request : Request) : Op Bool := ⟨fun s =>
  match s.tracee with
  | none => .done false s
  | some child => .done true {s with process := .resumed s.sdb.pid request child}⟩

def Ending.status : Ending → Nat
  | .exited code => code % 256 * 256
  | .signaled signal => signal

/-- `waitpid(pid,&status,0)`, `none` when it fails. It fails when the pid is no
child of the debugger, and never returns on a child that nobody let run. -/
def waitpid (w : World) (fuel : Nat) : Op (Option Report) := ⟨fun s =>
  match s.process with
  | .resumed pid request child =>
    if pid = s.sdb.pid then
      match w.resume fuel s.clock request child with
      | none => .waiting
      | some (.ended ending) =>
        .done (some (.ended ending)) {s with
          process := .ended pid ending
          clock := s.clock+1
          statuses := s.statuses ++ [.ended ending]}
      | some (.stopped signal after) =>
        .done (some (.stopped signal after)) {s with
          process := .stopped pid after
          clock := s.clock+1
          statuses := s.statuses ++ [.stopped signal]}
    else .done none s
  | .stopped pid _ => if pid = s.sdb.pid then .waiting else .done none s
  | _ => .done none s⟩

end Unixprog.Sdb
