import Unixprog.Sdb.Load
import Unixprog.Library.CStrings

/-! The methods of class `SDB`, in the order of the source. Only `si`, `cont` and
`checkProcess` let the child run; their fuel bounds the waiting and the nesting. -/
namespace Unixprog.Sdb
open Words CStrings

def helpLines : List String := [
  "- break \x7binstruction-address\x7d: add a break point",
  "- cont: continue execution",
  "- delete \x7bbreak-point-id\x7d: remove a break point",
  "- disasm addr: disassemble instructions in a file or a memory region",
  "- dump addr: dump memory content",
  "- exit: terminate the debugger",
  "- get reg: get a single value from a register",
  "- getregs: show registers",
  "- getregs: show registers",
  "- help: show this message",
  "- list: list break points",
  "- load \x7bpath/to/a/program\x7d: load a program",
  "- run: run the program",
  "- vmmap: show memory layout",
  "- set reg val: get a single value to a register",
  "- si: step into instruction",
  "- start: start the program and stop at the first instruction"]

def quit : Op Unit := do
  let s ← read
  if 0 < s.sdb.pid then
    modify fun s => {s with sent := s.sent ++ [(s.sdb.pid,SIGTERM)]}
  exit 0

def help : Op Unit := helpLines.forM fun line => say (.print line)

def trapWord (code : Word) : Word := (code &&& 0xffffffffffffff00#64) ||| 0xcc#64

/-- One round of the re-arming loop of start. It reads at `pre_addr`. -/
def rearm (addr : Word) : Op Unit := do
  let s ← read
  let curCode ← peekText s.sdb.preAddr
  unless ← pokeText addr (trapWord curCode) do error "ptrace: PTRACE_POKETEXT failed" 90

/-- The child between fork and the first stop: stopped after execvp, or gone. -/
def spawn (w : World) (pid : ℕ+) : Op Unit := do
  modify fun s => {s with clock := s.clock+1,sdb := {s.sdb with pid := pid}}
  let s ← read
  match w.exec s.sdb.programName with
  | some child => modify fun s => {s with process := .stopped pid child}
  | none =>
    say (.error "execvp failed." 72)
    modify fun s => {s with process := .ended pid (.exited 1)}

def start (w : World) : Op Unit := do
  let s ← read
  if s.sdb.state ≠ .loaded then
    debug "state must be LOADED"
  else
    match w.fork s.clock with
    | none => error "fork child-process failed" 63
    | some pid =>
      spawn w pid
      unless ← setOptions do error "ptrace: PTRACE_SETOPTIONS failed." 78
      debug s!"pid {pid.val}"
      onSdb fun d => {d with state := .running}
      let s ← read
      s.sdb.addrList.toList.forM fun entry => rearm entry.1

def list : Op Unit := do
  let s ← read
  s.sdb.addrList.toList.zipIdx.forM fun (entry,counter) => say (.listRow counter entry.1)

def setBreak (addr : Word) : Op Unit := do
  let s ← read
  if s.sdb.state ≠ .running then
    debug "state must be RUNNING"
  else if !s.sdb.inText addr then
    debug "the address is out of the range of the text segment"
  else if addr ∈ s.sdb.addrList then
    pure ()
  else
    let code ← peekText addr
    onSdb fun d => {d with addrList := d.addrList.insert addr code}
    unless ← pokeText addr (trapWord code) do error "ptrace: PTRACE_POKETEXT failed" 118

def restoreBp : Op Unit := do
  let s ← read
  if s.sdb.preAddr ≠ 0 then
    say (.resetBp s.sdb.preAddr)
    let curCode ← peekText s.sdb.preAddr
    unless ← pokeText s.sdb.preAddr (trapWord curCode) do error "ptrace: PTRACE_POKETEXT failed" 171
    onSdb fun d => {d with preAddr := 0}

/-- The bytes Capstone is given: `code_size` of them from `code_text+offset`, past
the end of the buffer whatever the heap holds. -/
def codeBytes (w : World) (d : SDB) (offset : Word) : List Byte :=
  (List.range d.codeSize).map fun i =>
    (((d.codeText.getD [])[offset.toNat+i]?).getD (w.heap (offset.toNat+i)))

def insnRows (d : SDB) : List Insn → List Message
  | [] => []
  | insn::rest =>
    if shAddr d.sectHeader+shSize d.sectHeader ≤ insn.address then
      [.debug "the address is out of the range of the text segment"]
    else .insnRow insn::insnRows d rest

def disasm (w : World) (addr : Word) (len : Nat) : Op Unit := do
  let s ← read
  if s.sdb.state ≠ .running then
    debug "state must be RUNNING"
  else if !s.sdb.inText addr then
    debug "the address is out of the range of the text segment"
  else
    let offset := shOffset s.sdb.sectHeader+addr-shAddr s.sdb.sectHeader
    if !w.csOpen then error "cs_open failed" 295
    else match w.csDisasm (codeBytes w s.sdb offset) addr len with
      | [] => debug "the address is out of the range of the text segment"
      | insns => (insnRows s.sdb insns).forM say

/-- A stop just past a listed address counts as a hit: report it, save the word
without its trap, and move rip back. -/
def reportHit (w : World) (regs : Registers) (addr value : Word) : Op Unit := do
  say .breakpointAt
  disasm w addr 1
  let oriCode := value &&& 0xff#64
  let curCode ← peekText addr
  onSdb fun d => {d with preAddr := addr,preVal := (curCode &&& 0xffffffffffffff00#64) ||| oriCode}
  unless ← setRegs {regs with rip := regs.rip-1} do error "ptrace: PTRACE_SETREGS failed" 244

def liftTrap (line : Nat) : Op Unit := do
  let s ← read
  if s.sdb.preAddr ≠ 0 then
    unless ← pokeText s.sdb.preAddr s.sdb.preVal do error "ptrace: PTRACE_POKETEXT failed" line

mutual
def si (w : World) : Nat → Op Unit
  | 0 => wait
  | fuel+1 => do
    let s ← read
    if s.sdb.state ≠ .running then
      debug "state must be RUNNING"
    else
      liftTrap 183
      unless ← letRun .singlestep do error "ptrace: PTRACE_SINGLESTEP failed" 186
      checkProcess w fuel

def checkProcess (w : World) : Nat → Op Unit
  | 0 => wait
  | fuel+1 => do
    let status ← waitpid w (fuel+1)
    let s ← read
    match status with
    | none => error "waitpid failed" 209
    | some (.ended (.exited code)) =>
      -- WIFSIGNALED, tested in this branch, is false here.
      debug s!"child process {s.sdb.pid} terminated normally (code {(Ending.exited code).status})"
      onSdb fun d => {d with pid := 0,state := .loaded,preVal := 0,preAddr := 0}
    | some (.stopped signal _) =>
      if signal = SIGTRAP then
        restoreBp
        match ← getRegs with
        | none => error "ptrace: PTRACE_GETREGS failed" 230
        | some regs =>
          match s.sdb.addrList[regs.rip-1]? with
          | some value => reportHit w regs (regs.rip-1) value
          | none => if regs.rip ∈ s.sdb.addrList then si w fuel
      else
        debug "tttttttttttttttttttttttttt"
    | some (.ended (.signaled signal)) =>
      debug s!"child process {s.sdb.pid} terminated by signal (code {signal})"
end

def cont (w : World) (fuel : Nat) : Op Unit := do
  let s ← read
  if s.sdb.state ≠ .running then
    debug "state must be RUNNING"
  else
    liftTrap 198
    unless ← letRun .cont do error "ptrace: PTRACE_CONT failed" 201
    checkProcess w fuel

def getregs : Op Unit := do
  let s ← read
  if s.sdb.state ≠ .running then
    debug "state must be RUNNING"
  else
    match ← getRegs with
    | none => error "ptrace: PTRACE_GETREGS failed" 268
    | some regs => say (.regTable regs)

def del (id : Int) : Op Unit := do
  let s ← read
  if s.sdb.state ≠ .running then
    debug "state must be RUNNING"
  else if id < 0 then
    debug "the address is out of the range of the text segment"
  else
    match s.sdb.addrList.toList[id.toNat]? with
    | none => debug "the address is out of the range of the text segment"
    | some (addr,value) =>
      unless ← pokeText addr value do error "ptrace: PTRACE_POKETEXT failed" 331
      onSdb fun d => {d with addrList := d.addrList.erase addr}
      debug s!"breakpoint {id} deleted."

def dumpRow (addr : Word) : Op Unit := do
  let low ← peekText addr
  let high ← peekText (addr+8)
  say (.dumpRow addr ((List.range 8).map (byteAt low) ++ (List.range 8).map (byteAt high)))

def dump (addr : Word) : Op Unit := do
  let s ← read
  if s.sdb.state ≠ .running then
    debug "state must be RUNNING"
  else if !s.sdb.inText addr then
    debug "the address is out of the range of the text segment"
  else
    (List.range (80/16)).forM fun i => dumpRow (addr+BitVec.ofNat 64 (16*i))

def getReg (regs : Registers) : String → Option Word
  | "rax" => some regs.rax
  | "rbx" => some regs.rbx
  | "rcx" => some regs.rcx
  | "rdx" => some regs.rdx
  | "r8" => some regs.r8
  | "r9" => some regs.r9
  | "r10" => some regs.r10
  | "r11" => some regs.r11
  | "r12" => some regs.r12
  | "r13" => some regs.r13
  | "r14" => some regs.r14
  | "r15" => some regs.r15
  | "rdi" => some regs.rdi
  | "rbp" => some regs.rbp
  | "rsp" => some regs.rsp
  | "rip" => some regs.rip
  | "flags" => some regs.eflags
  | _ => none

def get (regName : String) : Op Unit := do
  let s ← read
  if s.sdb.state ≠ .running then
    debug "state must be RUNNING"
  else
    match ← getRegs with
    | none => error "ptrace: PTRACE_GETREGS failed" 389
    | some regs =>
      match getReg regs regName with
      | none => pure ()
      | some value => say (.regValue regName value)

def run (w : World) (fuel : Nat) : Op Unit := do
  let s ← read
  match s.sdb.state with
  | .running =>
    debug s!"program {s.sdb.programName} is already running"
    cont w fuel
  | .loaded =>
    start w
    cont w fuel
  | .notLoaded => debug "state must be LOADED or RUNNING"

def setReg (regs : Registers) (val : Word) : String → Option Registers
  | "rax" => some {regs with rax := val}
  | "rbx" => some {regs with rbx := val}
  | "rcx" => some {regs with rcx := val}
  | "rdx" => some {regs with rdx := val}
  | "r8" => some {regs with r8 := val}
  | "r9" => some {regs with r9 := val}
  | "r10" => some {regs with r10 := val}
  | "r11" => some {regs with r11 := val}
  | "r12" => some {regs with r12 := val}
  | "r13" => some {regs with r13 := val}
  | "r14" => some {regs with r14 := val}
  | "r15" => some {regs with r15 := val}
  | "rdi" => some {regs with rdi := val}
  | "rbp" => some {regs with rbp := val}
  | "rsp" => some {regs with rsp := val}
  | "rip" => some {regs with rip := val}
  | "flags" => some {regs with eflags := val}
  | _ => none

/-- The one command that does not test the state. -/
def set (regName : String) (val : Word) : Op Unit := do
  match ← getRegs with
  | none => error "ptrace: PTRACE_GETREGS failed" 450
  | some regs =>
    match setReg regs val regName with
    | none => pure ()
    | some regs =>
      if regName = "rip" then onSdb fun d => {d with preAddr := 0,preVal := 0}
      unless ← setRegs regs do error "ptrace: PTRACE_SETREGS failed" 494

def vmmapLine (line : List Char) : List Message :=
  let start := strtok ['-'] line
  let stop := strtok [' '] start.2
  let perms := strtok ['p'] stop.2
  let offset := strtok [' '] perms.2
  let device := strtok [' '] offset.2
  let inode := strtok [' '] device.2
  let path := strtok [' '] inode.2
  (start.1.map fun token => Message.mapStart (strtoul16 token)).toList ++
    (stop.1.map fun token => Message.mapEnd (strtoul16 token)).toList ++
    (perms.1.map Message.mapPerms).toList ++
    (offset.1.map fun token => Message.mapOffset (strtoul16 token)).toList ++
    (path.1.map Message.mapPath).toList

def vmmap (w : World) : Op Unit := do
  let s ← read
  if s.sdb.state ≠ .running then
    debug "state must be RUNNING"
  else
    match ← fopen w (w.maps s.sdb.pid) with
    | none => error "fopen failed" 507
    | some lines => (lines.flatMap vmmapLine).forM say -- The stream stays open.

/-- A command line after main has cut it and converted its arguments. -/
inductive Command
  | break (addr : Word)
  | cont
  | delete (id : Int)
  | disasm (addr : Word)
  | dump (addr : Word)
  | exit
  | get (regName : String)
  | getregs
  | help
  | list
  | load (fileName : String)
  | run
  | vmmap
  | set (regName : String) (val : Word)
  | si
  | start

def Command.perform (w : World) (fuel : Nat) : Command → Op Unit
  | .break addr => setBreak addr
  | .cont => Sdb.cont w fuel
  | .delete id => del id
  | .disasm addr => Sdb.disasm w addr 10
  | .dump addr => Sdb.dump addr
  | .exit => quit
  | .get regName => Sdb.get regName
  | .getregs => Sdb.getregs
  | .help => Sdb.help
  | .list => Sdb.list
  | .load fileName => Sdb.load w fileName
  | .run => Sdb.run w fuel
  | .vmmap => Sdb.vmmap w
  | .set regName val => Sdb.set regName val
  | .si => Sdb.si w fuel
  | .start => Sdb.start w

end Unixprog.Sdb
