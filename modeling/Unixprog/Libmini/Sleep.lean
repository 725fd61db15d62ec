import Unixprog.Library.Plays
import Unixprog.Libmini.Open

/-! sleep in assembly, and the version in C that libmini.c keeps beside it. -/
namespace Unixprog.Libmini
open Words X86 Reg Plays

structure Timespec where
  tv_sec : Word
  tv_nsec : Word

def EINTR : Word := 4

def sleepResult (ret : Word) (rem : Timespec) : BitVec 32 :=
  if (0#64).sle ret then ret.setWidth 32
  else if ret = -EINTR then rem.tv_sec.setWidth 32
  else 0

/-- The version in C. It asks for nanosleep, which gives what is returned and `rem`. -/
def sleepC (seconds : BitVec 32) : Prog Timespec (fun _ => Word × Timespec) (BitVec 32) :=
  .ask ⟨seconds.setWidth 64,0⟩ fun outcome => .ret (sleepResult outcome.1 outcome.2)

def sysNanosleep : List Instr := gensys 35

def sleep (sys_nanosleep sleep_error sleep_interrupted sleep_failed sleep_quit : Word) : List Line := [
  .code (.sub rsp 32),
  .code (.plain (.mov (.mem rsp 0) (.reg rdi))),
  .code (.plain (.mov (.mem rsp 8) (.imm 0))),
  .code (.plain (.mov (.reg rdi) (.reg rsp))),
  .code (.plain (.lea rsi rsp 16)),
  .code (.plain (.call sys_nanosleep)),
  .code (.cmp rax 0),
  .code (.jcc .ge sleep_quit),
  .label sleep_error,
  .code (.neg rax),
  .code (.cmp rax 4),
  .code (.jcc .ne sleep_failed),
  .label sleep_interrupted,
  .code (.plain (.lea rsi rsp 16)),
  .code (.plain (.mov (.reg rax) (.mem rsi 0))),
  .code (.jmp sleep_quit),
  .label sleep_failed,
  .code (.plain (.mov (.reg rax) (.imm 0))),
  .label sleep_quit,
  .code (.add rsp 32),
  .code (.plain .ret)]

structure SleepLinked (P : Listing) where
  sleep : Word
  sys_nanosleep : Word
  sleep_error : Word
  sleep_interrupted : Word
  sleep_failed : Word
  sleep_quit : Word
  sleepLists : Lists P sleep (Libmini.sleep sys_nanosleep sleep_error sleep_interrupted sleep_failed sleep_quit)
  stubLists : Lists P sys_nanosleep (plain sysNanosleep)

variable {κ : Type} {P : Listing} {K : Kernel κ}

/-- nanosleep writes no memory but `rem`. -/
def WritesRem (K : Kernel κ) : Prop :=
  ∀ regs m k, regs rax = 35#64 → ∀ x, Outside x (regs rsi) 16 → (K regs m k).mem x = m x

def timespecAt (m : Bytes) (a : Word) : Timespec := ⟨load m a,load m (a+8#64)⟩

def Quiet : Code → Prop
  | .plain .syscall => False
  | _ => True

/-- sleep, entered in `s`, makes its system call in `u` and returns in `t`; on this outcome the
version in C asks for and returns the same. -/
structure SleepsAs (P : Listing) (K : Kernel κ) (s u t : Machine κ) (after : Word) : Prop where
  asks : Reaches P K Quiet s u
  call : P u.core.rip = some (.plain .syscall,after)
  number : u.core.reg rax = 35#64
  rest : Reaches P K Quiet (Code.exec K after u (.plain .syscall)) t
  same : Played (sleepC ((s.core.reg .rdi).setWidth 32))
    [⟨timespecAt u.core.mem (u.core.reg .rdi),(K u.core.reg u.core.mem u.core.kern).rax,
      timespecAt (K u.core.reg u.core.mem u.core.kern).mem (u.core.reg .rsi)⟩] ((t.core.reg rax).setWidth 32)
  rip : t.core.rip = s.core.top
  rsp : t.core.reg rsp = s.core.reg rsp+8#64
  kept : ∀ r ∈ calleeSaved, t.core.reg r = s.core.reg r

def SleepsAlike (P : Listing) (K : Kernel κ) (s : Machine κ) : Prop := ∃ u t after, SleepsAs P K s u t after

/-- sleep at its system call, which returns to `back`. The stack grows down to `B`. -/
structure SleepAsks (P : Listing) (s u : Machine κ) (B back : Word) : Prop where
  rax : u.core.reg rax = 35#64
  rdi : u.core.reg rdi = B+16#64
  rsi : u.core.reg rsi = B+32#64
  rsp : u.core.reg rsp = B
  request : timespecAt u.core.mem (B+16#64) = ⟨s.core.reg .rdi,0⟩
  pushed : load u.core.mem (B+8#64) = back ∧ load u.core.mem (B+48#64) = s.core.top
  kept : ∀ r ∈ calleeSaved, u.core.reg r = s.core.reg r
  code : Lists P u.core.rip [.code (.plain .syscall),.code (.plain (.pop (.reg r10))),.code (.plain .ret)]

theorem sleep_asks (L : SleepLinked P) (s : Machine κ) (B : Word) (entry : s.core.rip = L.sleep)
    (bottom : s.core.reg rsp = B+48#64) : ∃ u back, Reaches P K Quiet s u ∧ SleepAsks P s u B back ∧
      Lists P back ((Libmini.sleep L.sys_nanosleep L.sleep_error L.sleep_interrupted L.sleep_failed
        L.sleep_quit).drop 6) := by
  obtain ⟨a₁,h₁,a₂,h₂,a₃,h₃,a₄,h₄,a₅,h₅,a₆,h₆,tail⟩ := entry ▸ L.sleepLists
  obtain ⟨b₁,i₁,b₂,i₂,b₃,i₃,stub⟩ := L.stubLists
  have first : P s.core.rip = some (.sub rsp 32,a₁) := entry ▸ h₁
  refine ⟨_,a₆,.next first trivial (.next h₂ trivial (.next h₃ trivial (.next h₄ trivial (.next h₅ trivial
    (.next h₆ trivial (.next i₁ trivial (.next i₂ trivial (.next i₃ trivial (.refl _))))))))),?_,tail⟩
  constructor
  case rax => simp [Code.exec]
  case rdi => simp [Code.exec,bottom]
  case rsi => simp [Code.exec,bottom,BitVec.add_assoc]
  case rsp => simp [Code.exec,bottom]
  case request => simp [-BitVec.add_zero,Code.exec,bottom,timespecAt,BitVec.add_assoc,load_same,load_above]
  case pushed => simp [-BitVec.add_zero,Code.exec,bottom,BitVec.add_assoc,load_same,load_above]
  case kept =>
    intro r member
    obtain ⟨a,b,c,d,_,e,_⟩ := calleeSaved_other member
    simp [Code.exec,a,b,c,d,e]
  case code => exact stub

/-- sleep, entered in `s`, when the stub has returned to `back`. -/
structure SleepAnswered (s w : Machine κ) (B back ret sec : Word) : Prop where
  rip : w.core.rip = back
  rsp : w.core.reg rsp = B+16#64
  rax : w.core.reg rax = ret
  rem : load w.core.mem (B+32#64) = sec
  top : load w.core.mem (B+48#64) = s.core.top
  kept : ∀ r ∈ calleeSaved, w.core.reg r = s.core.reg r

theorem sleep_answered {s u : Machine κ} {B back : Word} (asks : SleepAsks P s u B back) (writes : WritesRem K) :
    ∃ after w, P u.core.rip = some (.plain .syscall,after) ∧
      Reaches P K Quiet (Code.exec K after u (.plain .syscall)) w ∧
      SleepAnswered s w B back (K u.core.reg u.core.mem u.core.kern).rax
        (load (K u.core.reg u.core.mem u.core.kern).mem (B+32#64)) := by
  obtain ⟨a₁,call,a₂,h₂,a₃,h₃,_⟩ := asks.code
  obtain ⟨pushed,top⟩ := asks.pushed
  have frame (j : Nat) (away : j+8 ≤ 32 ∨ 48 ≤ j) (small : j < 64) :
      load (K u.core.reg u.core.mem u.core.kern).mem (B+BitVec.ofNat 64 j) = load u.core.mem (B+BitVec.ofNat 64 j) := by
    have apart := apart_same B j 32 8 16 (by omega) (by omega) (by omega)
    refine load_congr fun i inside => writes _ _ _ asks.rax _ ?_
    rw [asks.rsi]
    exact fun k bound => apart i inside k bound
  refine ⟨a₁,_,call,.next h₂ trivial (.next h₃ trivial (.refl _)),?_⟩
  constructor
  case rip => simpa [Code.exec,asks.rsp] using (frame 8 (by omega) (by omega)).trans pushed
  case rsp => simp [Code.exec,asks.rsp,BitVec.add_assoc]
  case rax => simp [Code.exec]
  case rem => simp [Code.exec]
  case top => simpa [Code.exec] using (frame 48 (by omega) (by omega)).trans top
  case kept =>
    intro r member
    obtain ⟨a,_,c,_,d,e,f⟩ := calleeSaved_other member
    simp [Code.exec,a,c,d,e,f,asks.kept r member]

/-- sleep at sleep_quit, with what it returns in rax. -/
structure SleepQuits (L : SleepLinked P) (s x : Machine κ) (B : Word) (value : BitVec 32) : Prop where
  rip : x.core.rip = L.sleep_quit
  rsp : x.core.reg rsp = B+16#64
  rax : (x.core.reg rax).setWidth 32 = value
  top : load x.core.mem (B+48#64) = s.core.top
  kept : ∀ r ∈ calleeSaved, x.core.reg r = s.core.reg r

/-- sleep at sleep_error. -/
theorem sleep_fails (L : SleepLinked P) {s x : Machine κ} {B ret : Word} {rem : Timespec}
    (answered : SleepAnswered s x B L.sleep_error ret rem.tv_sec) (lists : Lists P L.sleep_error ((Libmini.sleep
      L.sys_nanosleep L.sleep_error L.sleep_interrupted L.sleep_failed L.sleep_quit).drop 9)) :
    ∃ y, Reaches P K Quiet x y ∧ SleepQuits L s y B (if ret = -EINTR then rem.tv_sec.setWidth 32 else 0) := by
  obtain ⟨a₁,h₁,a₂,h₂,a₃,h₃,e₃,a₄,h₄,a₅,h₅,a₆,h₆,e₆,a₇,h₇,e₇,_⟩ := lists
  have negates : P x.core.rip = some (.neg rax,a₁) := answered.rip ▸ h₁
  let y := Code.exec K a₃ (Code.exec K a₂ (Code.exec K a₁ x (.neg rax)) (.cmp rax 4)) (.jcc .ne L.sleep_failed)
  have tested : Reaches P K Quiet x y := .next negates trivial (.next h₂ trivial (.next h₃ trivial (.refl _)))
  have forked : y.core.rip = if ret = -EINTR then a₃ else L.sleep_failed := by
    have negated : -ret = 4#64 ↔ ret = -EINTR := by
      rw [EINTR]
      constructor <;> intro same <;> bv_omega
    simp [y,Code.exec,answered.rax,negated]
  have kept : ∀ r ∈ calleeSaved, y.core.reg r = s.core.reg r := by
    intro r member
    obtain ⟨a,_⟩ := calleeSaved_other member
    simp [y,Code.exec,a,answered.kept r member]
  by_cases interrupted : ret = -EINTR
  · rw [if_pos interrupted] at forked
    have reads : P y.core.rip = some (.plain (.lea rsi rsp 16),a₄) := by rw [forked,h₄]
    refine ⟨_,tested.trans (.next reads trivial (.next h₅ trivial (.next h₆ trivial (.refl _)))),?_⟩
    rw [if_pos interrupted]
    constructor
    case rip => simp [Code.exec]
    case rsp => simp [Code.exec,y,answered.rsp]
    case rax => simp [Code.exec,y,answered.rsp,answered.rem,BitVec.add_assoc]
    case top => simpa [Code.exec,y] using answered.top
    case kept =>
      intro r member
      obtain ⟨a,_,_,d,_⟩ := calleeSaved_other member
      simp [Code.exec,a,d,kept r member]
  · rw [if_neg interrupted] at forked
    have zeroes : P y.core.rip = some (.plain (.mov (.reg rax) (.imm 0)),a₇) := by rw [forked,← e₆,h₇]
    refine ⟨_,tested.trans (.next zeroes trivial (.refl _)),?_⟩
    rw [if_neg interrupted]
    constructor
    case rip => simp [Code.exec,e₇]
    case rsp => simp [Code.exec,y,answered.rsp]
    case rax => simp [Code.exec]
    case top => simpa [Code.exec,y] using answered.top
    case kept =>
      intro r member
      obtain ⟨a,_⟩ := calleeSaved_other member
      simp [Code.exec,a,kept r member]

/-- sleep after its system call, up to sleep_quit. -/
theorem sleep_decides (L : SleepLinked P) {s w : Machine κ} {B back ret : Word} {rem : Timespec}
    (answered : SleepAnswered s w B back ret rem.tv_sec) (lists : Lists P back ((Libmini.sleep
      L.sys_nanosleep L.sleep_error L.sleep_interrupted L.sleep_failed L.sleep_quit).drop 6)) :
    ∃ x, Reaches P K Quiet w x ∧ SleepQuits L s x B (sleepResult ret rem) := by
  obtain ⟨a₁,h₁,a₂,h₂,e₂,failing⟩ := lists
  have compared : P w.core.rip = some (.cmp rax 0,a₁) := answered.rip ▸ h₁
  let x := Code.exec K a₂ (Code.exec K a₁ w (.cmp rax 0)) (.jcc .ge L.sleep_quit)
  have tested : Reaches P K Quiet w x := .next compared trivial (.next h₂ trivial (.refl _))
  have forked : x.core.rip = if (0#64).sle ret then L.sleep_quit else a₂ := by simp [x,Code.exec,answered.rax]
  by_cases fine : (0#64).sle ret = true
  · rw [if_pos fine] at forked
    refine ⟨x,tested,forked,answered.rsp,?_,answered.top,answered.kept⟩
    rw [sleepResult,if_pos fine]
    exact congrArg (BitVec.setWidth 32) answered.rax
  · rw [if_neg fine,e₂] at forked
    rw [e₂] at failing
    obtain ⟨y,reached,quits⟩ := sleep_fails (K := K) (s := s) (x := x) L
      ⟨forked,answered.rsp,answered.rax,answered.rem,answered.top,answered.kept⟩ failing
    refine ⟨y,tested.trans reached,?_⟩
    rw [sleepResult,if_neg fine]
    exact quits

/-- From sleep_quit on. -/
theorem sleep_quits (L : SleepLinked P) {s x : Machine κ} {B : Word} {value : BitVec 32}
    (quits : SleepQuits L s x B value) :
    ∃ t, Reaches P K Quiet x t ∧ t.core.rip = s.core.top ∧ t.core.reg rsp = B+56#64 ∧
      (t.core.reg rax).setWidth 32 = value ∧ ∀ r ∈ calleeSaved, t.core.reg r = s.core.reg r := by
  obtain ⟨a₁,h₁,a₂,h₂,_⟩ := lists_label ((Libmini.sleep _ _ _ _ _).take 18) L.sleepLists
  have adds : P x.core.rip = some (.add rsp 32,a₁) := quits.rip ▸ h₁
  refine ⟨_,.next adds trivial (.next h₂ trivial (.refl _)),?_,?_,?_,?_⟩
  · simpa [Code.exec,quits.rsp,BitVec.add_assoc] using quits.top
  · simp [Code.exec,quits.rsp,BitVec.add_assoc]
  · simpa [Code.exec] using quits.rax
  · intro r member
    obtain ⟨_,_,c,_⟩ := calleeSaved_other member
    simp [Code.exec,c,quits.kept r member]

theorem sleepC_played (seconds : BitVec 32) (request rem : Timespec) (ret : Word) (value : BitVec 32) :
    Played (sleepC seconds) [⟨request,ret,rem⟩] value ↔
      request = ⟨seconds.setWidth 64,0⟩ ∧ value = sleepResult ret rem := by
  rw [sleepC,plays_ask]
  constructor
  · rintro ⟨outcome,rest,same,goes⟩
    cases same
    exact ⟨rfl,(plays_ret.mp goes).2⟩
  · rintro ⟨rfl,rfl⟩
    exact ⟨(ret,rem),[],rfl,.ret _⟩

theorem halts_call {u : Machine κ} {after : Word} (call : P u.core.rip = some (.plain .syscall,after)) :
    Halted P Quiet u := by
  intro i next here
  rw [call] at here
  cases here
  exact id

/-- sleep in assembly is the version in C exactly if the upper half of rdi is clear: it
stores all of rdi as the seconds. -/
theorem sleeps_alike_iff (L : SleepLinked P) (writes : WritesRem K) (s : Machine κ) (entry : s.core.rip = L.sleep) :
    SleepsAlike P K s ↔ (s.core.reg rdi).toNat < 2^32 := by
  have bottom : s.core.reg rsp = s.core.reg rsp-48#64+48#64 := (BitVec.sub_add_cancel _ _).symm
  obtain ⟨u,back,asking,asks,lists⟩ := sleep_asks (K := K) L s (s.core.reg rsp-48#64) entry bottom
  obtain ⟨after,w,call,answering,answered⟩ := sleep_answered asks writes
  have clear : s.core.reg rdi = ((s.core.reg rdi).setWidth 32).setWidth 64 ↔ (s.core.reg rdi).toNat < 2^32 := by
    rw [← BitVec.toNat_inj,BitVec.toNat_setWidth,BitVec.toNat_setWidth]
    omega
  rw [← clear]
  constructor
  · rintro ⟨u',t,after',sleeps⟩
    obtain rfl : u' = u := asking.unique sleeps.asks (halts_call call) (halts_call sleeps.call)
    have same := ((sleepC_played _ _ _ _ _).mp sleeps.same).1
    rw [asks.rdi,asks.request] at same
    exact (Timespec.mk.inj same).1
  · intro full
    let rem := timespecAt (K u.core.reg u.core.mem u.core.kern).mem (s.core.reg rsp-48#64+32#64)
    have remaining : SleepAnswered s w _ back _ rem.tv_sec := answered
    obtain ⟨x,deciding,quits⟩ := sleep_decides (K := K) L remaining lists
    obtain ⟨t,quitting,rip,rsp',value,kept⟩ := sleep_quits (K := K) L quits
    refine ⟨u,t,after,?_⟩
    constructor
    case asks => exact asking
    case call => exact call
    case number => exact asks.rax
    case rest => exact answering.trans (deciding.trans quitting)
    case same =>
      rw [sleepC_played,asks.rdi,asks.rsi,asks.request,← full]
      exact ⟨rfl,value⟩
    case rip => exact rip
    case rsp =>
      rw [rsp']
      bv_omega
    case kept => exact kept

def sleepListing : Listing := fun a =>
  let routine := match a.toNat/0x1000 with
    | 1 => Libmini.sleep 0x2000 0x1008 0x100b 0x100e 0x100f
    | 2 => plain sysNanosleep
    | _ => []
  ((codes routine)[a.toNat%0x1000]?).map fun i => (i,a+1)

def sleepSample : SleepLinked sleepListing where
  sleep := 0x1000
  sys_nanosleep := 0x2000
  sleep_error := 0x1008
  sleep_interrupted := 0x100b
  sleep_failed := 0x100e
  sleep_quit := 0x100f
  sleepLists := by repeat (first | exact trivial | refine ⟨_,rfl,?_⟩ | refine ⟨rfl,?_⟩)
  stubLists := by repeat (first | exact trivial | refine ⟨_,rfl,?_⟩)

def sleepStart (seconds : Word) : Machine Unit where
  core := {
    rip := 0x1000
    reg r := if r = .rsp then 0x7000 else if r = .rdi then seconds else 0
    mem _ := 0
    kern := ()}
  flags := ⟨false,false,false⟩

/-- A kernel that lets the time pass. -/
def passing : Kernel Unit := fun _ m _ => ⟨0,0,0,m,()⟩

theorem sleeps_alike_iff_five : SleepsAlike sleepListing passing (sleepStart 5) :=
  (sleeps_alike_iff sleepSample (fun _ _ _ _ _ _ => rfl) (sleepStart 5) rfl).mpr (by decide)

/-- A caller leaves 1 in the upper half of rdi: the request is for 2^32+5 seconds. -/
theorem sleep_stores_upper_half : ¬ SleepsAlike sleepListing passing (sleepStart 0x100000005) := by
  rintro ⟨u,t,after,sleeps⟩
  obtain ⟨v,back,asking,asks,_⟩ := sleep_asks (K := passing) sleepSample (sleepStart 0x100000005)
    ((sleepStart 0x100000005).core.reg .rsp-48) rfl (BitVec.sub_add_cancel _ _).symm
  obtain ⟨next,call,_⟩ := asks.code
  obtain rfl : u = v := asking.unique sleeps.asks (halts_call call) (halts_call sleeps.call)
  have same := ((sleepC_played _ _ _ _ _).mp sleeps.same).1
  rw [asks.rdi,asks.request] at same
  exact absurd (Timespec.mk.inj same).1 (by decide)

end Unixprog.Libmini
