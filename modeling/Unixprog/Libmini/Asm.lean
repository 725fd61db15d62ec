import Unixprog.Library.X86

/-! The routines of libmini64.asm, instruction by instruction. -/
namespace Unixprog.Libmini
open Words X86 Reg

def gensys (number : Word) : List Instr := [
  .push (.reg r10),
  .mov (.reg r10) (.reg rcx),
  .mov (.reg rax) (.imm number),
  .syscall,
  .pop (.reg r10),
  .ret]

def sysRtSigprocmask : List Instr := gensys 14

/-- `sys_rt_sigprocmask` stands for the address of that label. -/
def setjmp (sys_rt_sigprocmask : Word) : List Instr := [
  .mov (.mem rdi (8*0)) (.reg rbx),
  .mov (.mem rdi (8*1)) (.reg rsp),
  .mov (.mem rdi (8*2)) (.reg rbp),
  .mov (.mem rdi (8*3)) (.reg r12),
  .mov (.mem rdi (8*4)) (.reg r13),
  .mov (.mem rdi (8*5)) (.reg r14),
  .mov (.mem rdi (8*6)) (.reg r15),
  .push (.mem rsp 0),
  .pop (.mem rdi (8*7)),
  .push (.reg rdi),
  .push (.reg rsi),
  .push (.reg rdx),
  .push (.reg rcx),
  .xor rdi rdi,
  .xor rsi rsi,
  .lea rdx rdi (8*8),
  .mov (.reg rcx) (.imm 8),
  .call sys_rt_sigprocmask,
  .pop (.reg rcx),
  .pop (.reg rdx),
  .pop (.reg rsi),
  .pop (.reg rdi),
  .xor rax rax,
  .ret]

def longjmp (sys_rt_sigprocmask : Word) : List Instr := [
  .mov (.reg rbx) (.mem rdi (8*0)),
  .mov (.reg rsp) (.mem rdi (8*1)),
  .mov (.reg rbp) (.mem rdi (8*2)),
  .mov (.reg r12) (.mem rdi (8*3)),
  .mov (.reg r13) (.mem rdi (8*4)),
  .mov (.reg r14) (.mem rdi (8*5)),
  .mov (.reg r15) (.mem rdi (8*6)),
  .push (.mem rdi (8*7)),
  .pop (.mem rsp 0),
  .push (.reg rdi),
  .push (.reg rsi),
  .push (.reg rdx),
  .mov (.reg rdi) (.imm 2),
  .lea rsi rdi (8*8),
  .xor rdx rdx,
  .call sys_rt_sigprocmask,
  .pop (.reg rdx),
  .pop (.reg rsi),
  .pop (.reg rdi),
  .mov (.reg rax) (.reg rsi),
  .ret]

structure Linked (P : Program) where
  setjmp : Word
  longjmp : Word
  sysRtSigprocmask : Word
  setjmpHolds : Holds P setjmp (Libmini.setjmp sysRtSigprocmask)
  longjmpHolds : Holds P longjmp (Libmini.longjmp sysRtSigprocmask)
  stubHolds : Holds P sysRtSigprocmask Libmini.sysRtSigprocmask

end Unixprog.Libmini
