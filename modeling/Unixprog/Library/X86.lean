import Unixprog.Library.Words
import Mathlib.Data.Nat.Init

/-! A part of x86-64: 64-bit moves, the stack, calls and system calls. Flags and
faults are left out, so every address can be read and written. The kernel is a
parameter with a state of its own. -/
namespace Unixprog.X86
open Words

/-! Memory in which every address holds a byte. -/

abbrev Bytes := Word → Byte

def load (m : Bytes) (a : Word) : Word := assemble fun i => m (a+BitVec.ofNat 64 i)

def put (m : Bytes) (a value : Word) : Bytes := overwrite m a (byteAt value)

/-- The `n` bytes from `a` on and the `k` bytes from `b` on have none in common. -/
def Apart (a : Word) (n : Nat) (b : Word) (k : Nat) : Prop :=
  ∀ i < n, ∀ j < k, a+BitVec.ofNat 64 i ≠ b+BitVec.ofNat 64 j

section Bytes
variable {m : Bytes} {a b value : Word} {n k : Nat}

theorem Apart.symm (apart : Apart a n b k) : Apart b k a n :=
  fun j inside i bound same => apart i bound j inside same.symm

theorem add_ofNat (a : Word) (i j : Nat) : a+BitVec.ofNat 64 i+BitVec.ofNat 64 j = a+BitVec.ofNat 64 (i+j) := by
  rw [BitVec.add_assoc,BitVec.ofNat_add]

theorem sub_add_ofNat (a : Word) (n i : Nat) (inside : i ≤ n) :
    a-BitVec.ofNat 64 n+BitVec.ofNat 64 i = a-BitVec.ofNat 64 (n-i) := by
  rw [show BitVec.ofNat 64 n = BitVec.ofNat 64 (n-i)+BitVec.ofNat 64 i by
    rw [← BitVec.ofNat_add,Nat.sub_add_cancel inside],← BitVec.sub_sub,BitVec.sub_add_cancel]

theorem Apart.weaken (apart : Apart a n b k) {n' k' : Nat} (left : n' ≤ n) (right : k' ≤ k) : Apart a n' b k' :=
  fun i inside j bound => apart i (by omega) j (by omega)

theorem Apart.parts (apart : Apart a n b k) (i j : Nat) {n' k' : Nat} (left : i+n' ≤ n) (right : j+k' ≤ k) :
    Apart (a+BitVec.ofNat 64 i) n' (b+BitVec.ofNat 64 j) k' := by
  intro x inside y bound
  rw [add_ofNat,add_ofNat]
  exact apart _ (by omega) _ (by omega)

theorem apart_same (a : Word) (i j : Nat) (n k : Nat) (order : i+n ≤ j ∨ j+k ≤ i) (small : i+n ≤ 2^64)
    (small' : j+k ≤ 2^64) : Apart (a+BitVec.ofNat 64 i) n (a+BitVec.ofNat 64 j) k := by
  intro x inside y bound same
  rw [add_ofNat,add_ofNat] at same
  have equal := congrArg (offset a) same
  rw [offset_add _ _ (by omega),offset_add _ _ (by omega)] at equal
  omega

theorem load_congr {m' : Bytes} (same : ∀ i < 8, m' (a+BitVec.ofNat 64 i) = m (a+BitVec.ofNat 64 i)) :
    load m' a = load m a := by
  apply word_ext
  intro i small
  rw [load,load,byteAt_assemble _ i small,byteAt_assemble _ i small,same i small]

@[simp] theorem load_put (m : Bytes) (a value : Word) : load (put m a value) a = value := by
  apply word_ext
  intro i small
  rw [load,byteAt_assemble _ i small]
  exact overwrite_inside m a (byteAt value) i small

theorem put_outside (m : Bytes) (a value x : Word) (outside : ∀ j < 8, x ≠ a+BitVec.ofNat 64 j) :
    put m a value x = m x := by
  refine overwrite_outside _ _ _ _ ?_
  intro inside
  exact outside (offset a x) inside (add_offset a x).symm

theorem load_apart (m : Bytes) (value : Word) (apart : Apart b 8 a 8) : load (put m a value) b = load m b :=
  load_congr fun i small => put_outside _ _ _ _ (apart i small)

theorem load_same (m : Bytes) (a value : Word) (i j : Nat) (order : i+8 ≤ j ∨ j+8 ≤ i) (small : i+8 ≤ 2^64)
    (small' : j+8 ≤ 2^64) : load (put m (a+BitVec.ofNat 64 i) value) (a+BitVec.ofNat 64 j) =
      load m (a+BitVec.ofNat 64 j) := load_apart m value (apart_same a j i 8 8 order.symm small' small)

theorem load_above (m : Bytes) (a value : Word) (j : Nat) (far : 8 ≤ j) (small : j+8 ≤ 2^64) :
    load (put m a value) (a+BitVec.ofNat 64 j) = load m (a+BitVec.ofNat 64 j) := by
  simpa using load_same m a value 0 j (.inl far) (by omega) small

theorem load_parts (m : Bytes) (value : Word) (apart : Apart a n b k) (i j : Nat) (left : i+8 ≤ n)
    (right : j+8 ≤ k) : load (put m (b+BitVec.ofNat 64 j) value) (a+BitVec.ofNat 64 i) =
      load m (a+BitVec.ofNat 64 i) := load_apart m value (apart.parts i j left right)

def Outside (x a : Word) (n : Nat) : Prop := ∀ i < n, x ≠ a+BitVec.ofNat 64 i

theorem put_part (m : Bytes) (a value x : Word) (i n : Nat) (outside : Outside x a n) (part : i+8 ≤ n) :
    put m (a+BitVec.ofNat 64 i) value x = m x := by
  refine put_outside m _ value x ?_
  intro j small
  rw [add_ofNat]
  exact outside (i+j) (by omega)

@[simp] theorem add_sub_literal (a c d : Word) : a+c-d = a+(c-d) := by
  rw [BitVec.sub_eq_add_neg,BitVec.sub_eq_add_neg,BitVec.add_assoc]

end Bytes

inductive Reg
  | rax | rbx | rcx | rdx | rsi | rdi | rbp | rsp | r8 | r9 | r10 | r11 | r12 | r13 | r14 | r15
deriving DecidableEq

inductive Operand
  | reg (r : Reg)
  | imm (value : Word)
  | mem (base : Reg) (disp : Word)

inductive Instr
  | mov (dst src : Operand)
  | lea (dst base : Reg) (disp : Word)
  | xor (dst src : Reg)
  | push (src : Operand)
  | pop (dst : Operand)
  | call (target : Word)
  | ret
  | syscall

variable {κ : Type}

structure State (κ : Type) where
  rip : Word
  reg : Reg → Word
  mem : Bytes
  kern : κ

/-- What a system call leaves behind. The processor itself clobbers rcx and r11. -/
structure Response (κ : Type) where
  rax : Word
  rcx : Word
  r11 : Word
  mem : Bytes
  kern : κ

abbrev Kernel (κ : Type) := (Reg → Word) → Bytes → κ → Response κ

@[simp] def State.set (s : State κ) (r : Reg) (value : Word) : State κ := {s with reg := Function.update s.reg r value}

@[simp] def State.read (s : State κ) : Operand → Word
  | .reg r => s.reg r
  | .imm value => value
  | .mem base disp => load s.mem (s.reg base+disp)

@[simp] def State.write (s : State κ) (value : Word) : Operand → State κ
  | .reg r => s.set r value
  | .imm _ => s
  | .mem base disp => {s with mem := put s.mem (s.reg base+disp) value}

@[simp] def State.push (s : State κ) (value : Word) : State κ :=
  {s.set .rsp (s.reg .rsp-8#64) with mem := put s.mem (s.reg .rsp-8#64) value}

@[simp] def State.drop (s : State κ) : State κ := s.set .rsp (s.reg .rsp+8#64)

@[simp] def State.top (s : State κ) : Word := load s.mem (s.reg .rsp)

@[simp] def State.respond (s : State κ) (r : Response κ) : State κ :=
  {(((s.set .rax r.rax).set .rcx r.rcx).set .r11 r.r11) with mem := r.mem,kern := r.kern}

@[simp] def Instr.exec (K : Kernel κ) (next : Word) (s : State κ) : Instr → State κ
  | .mov dst src => {s.write (s.read src) dst with rip := next}
  | .lea dst base disp => {s.set dst (s.reg base+disp) with rip := next}
  | .xor dst src => {s.set dst (s.reg dst ^^^ s.reg src) with rip := next}
  | .push src => {s.push (s.read src) with rip := next}
  -- The address of a destination in memory is computed with rsp already moved.
  | .pop dst => {s.drop.write s.top dst with rip := next}
  | .call target => {s.push next with rip := target}
  | .ret => {s.drop with rip := s.top}
  | .syscall => {s.respond (K s.reg s.mem s.kern) with rip := next}

/-- A program gives the instruction at an address and the address after it. -/
abbrev Program := Word → Option (Instr × Word)

def step (P : Program) (K : Kernel κ) (s : State κ) : Option (State κ) :=
  (P s.rip).map fun found => found.1.exec K found.2 s

inductive Leads (P : Program) (K : Kernel κ) : State κ → State κ → Prop
  | refl (s : State κ) : Leads P K s s
  | next {s t u : State κ} (one : step P K s = some t) (rest : Leads P K t u) : Leads P K s u

def Holds (P : Program) : Word → List Instr → Prop
  | _,[] => True
  | a,i::rest => ∃ next, P a = some (i,next) ∧ Holds P next rest

section Execution
variable {P : Program} {K : Kernel κ} {s t u : State κ}

theorem Leads.trans (first : Leads P K s t) (second : Leads P K t u) : Leads P K s u := by
  induction first with
  | refl s => exact second
  | next one _ ih => exact .next one (ih second)

theorem leads_exec {i : Instr} {next : Word} (here : P s.rip = some (i,next))
    (rest : Leads P K (i.exec K next s) t) : Leads P K s t :=
  .next (by rw [step,here]; rfl) rest

theorem Leads.unique (first : Leads P K s t) (second : Leads P K s u) (stuck : step P K t = none)
    (stuck' : step P K u = none) : u = t := by
  induction first with
  | refl s =>
    cases second with
    | refl => rfl
    | next one => rw [stuck] at one; cases one
  | next one _ ih =>
    cases second with
    | refl => rw [stuck'] at one; cases one
    | next other rest =>
      rw [one] at other
      cases other
      exact ih rest stuck

end Execution

end Unixprog.X86
