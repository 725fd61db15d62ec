import Unixprog.Library.Branches
import Unixprog.Libmini.Jump
import Unixprog.Libmini.Wrappers

/-! open, in assembly because of its variable number of arguments. -/
namespace Unixprog.Libmini
open Words X86 Reg

def sysOpen : List Instr := gensys 2

/-- `got` holds the address of errno. -/
def «open» (sys_open got open_error open_success open_quit : Word) : List Line := [
  .code (.plain (.call sys_open)),
  .code (.cmp rax 0),
  .code (.jcc .ge open_success),
  .label open_error,
  .code (.neg rax),
  .code (.fetch rdi got),
  .code (.plain (.mov (.mem rdi 0) (.reg rax))),
  .code (.plain (.mov (.reg rax) (.imm (-1)))),
  .code (.jmp open_quit),
  .label open_success,
  .code (.fetch rdi got),
  .code (.plain (.mov (.mem rdi 0) (.imm 0))),
  .label open_quit,
  .code (.plain .ret)]

structure OpenLinked (P : Listing) where
  «open» : Word
  sys_open : Word
  open_error : Word
  open_success : Word
  open_quit : Word
  got : Word
  errno : Word
  openLists : Lists P «open» (Libmini.open sys_open got open_error open_success open_quit)
  stubLists : Lists P sys_open (plain sysOpen)

variable {κ : Type} {P : Listing} {K : Kernel κ}

/-- open is entered with errno and the slot of its address away from the stack, and the
system call, which writes no memory, returns `ret`. -/
structure OpenEntered (L : OpenLinked P) (K : Kernel κ) (s : Machine κ) (ret : Int) : Prop where
  rip : s.core.rip = L.open
  slot : load s.core.mem L.got = L.errno
  got : Apart L.got 8 (s.core.reg rsp-16#64) 16
  errno : Apart L.errno 8 (s.core.reg rsp) 8
  silent : ∀ regs m k, regs rax = 2#64 → (K regs m k).mem = m
  returns : ∀ regs m, regs rax = 2#64 → (K regs m s.core.kern).rax = BitVec.ofInt 64 ret

structure OpenReturned (L : OpenLinked P) (s t : Machine κ) (value errno : Int) : Prop where
  rip : t.core.rip = s.core.top
  rsp : t.core.reg rsp = s.core.reg rsp+8#64
  rax : CType.int.convert (t.core.reg rax).toInt = value
  errno : (load t.core.mem L.errno).toInt = errno
  kept : ∀ r ∈ calleeSaved, t.core.reg r = s.core.reg r

/-- open, entered in `s`, when its call of the stub has returned to `after`. -/
structure OpenAsked (L : OpenLinked P) (s t : Machine κ) (ret : Int) (after : Word) : Prop where
  rip : t.core.rip = after
  rsp : t.core.reg rsp = s.core.reg .rsp
  rax : t.core.reg rax = BitVec.ofInt 64 ret
  slot : load t.core.mem L.got = L.errno
  top : t.core.top = s.core.top
  kept : ∀ r ∈ calleeSaved, t.core.reg r = s.core.reg r

theorem open_asks (L : OpenLinked P) (s : Machine κ) (ret : Int) (entered : OpenEntered L K s ret) (after : Word)
    (here : P s.core.rip = some (.plain (.call L.sys_open),after)) :
    ∃ t, Reaches P K (fun _ => True) s t ∧ OpenAsked L s t ret after := by
  let u : State κ := {s.core.push after with rip := L.sys_open}
  obtain ⟨t,led,answered⟩ := stub_leads (K := K) 2#64 u (holds_plain _ _ L.stubLists) (entered.silent _ _ _ rfl)
  obtain ⟨f,reached⟩ := leads_reaches led s.flags
  have mem : t.mem = put (put s.core.mem (s.core.reg rsp-8#64) after) (s.core.reg rsp-16#64) (s.core.reg r10) := by
    rw [answered.mem,entered.silent _ _ _ rfl]
    simp [u,BitVec.sub_sub]
  have below (a : Word) (apart : Apart a 8 (s.core.reg rsp-16#64) 16) : load t.mem a = load s.core.mem a := by
    have lower := load_apart (put s.core.mem (s.core.reg rsp-8#64) after) (s.core.reg r10) (apart.weaken le_rfl (by omega))
    have upper := load_parts s.core.mem after apart 0 8 (by omega) (by omega)
    rw [mem,lower]
    simpa [sub_add_ofNat] using upper
  have rsp' : t.reg rsp = s.core.reg rsp := by simpa [u] using answered.rsp
  refine ⟨⟨t,f⟩,.next here trivial reached,?_⟩
  constructor
  case rip =>
    refine answered.rip.trans ?_
    simp [u]
  case rsp => exact rsp'
  case rax => exact answered.rax.trans (entered.returns _ _ rfl)
  case slot => exact (below L.got entered.got).trans entered.slot
  case top =>
    have apart := apart_same (s.core.reg rsp-16#64) 16 0 8 16 (by omega) (by omega) (by omega)
    rw [State.top,rsp']
    exact below _ (by simpa using apart)
  case kept =>
    intro r member
    obtain ⟨steady,other,_⟩ := calleeSaved_steady r member
    simpa [u,other] using answered.kept r steady

theorem calleeSaved_other {r : Reg} (member : r ∈ calleeSaved) : r ≠ rax ∧ r ≠ rdi ∧ r ≠ rsp ∧ r ≠ rsi ∧ r ≠ rcx ∧
    r ≠ r10 ∧ r ≠ r11 := by
  refine ⟨?_,?_,?_,?_,?_,?_,?_⟩
  all_goals
    rintro rfl
    exact absurd member (by decide)

theorem toInt_small {n : Int} (small : -2^63 < n ∧ n < 2^63) : (BitVec.ofInt 64 n).toInt = n := by
  rw [BitVec.toInt_ofInt]
  exact Int.bmod_eq_of_le (by omega) (by omega)

/-- open returns what its system call says, by the convention of the wrappers in C. -/
theorem open_returns (L : OpenLinked P) (s : Machine κ) (ret : Int) (entered : OpenEntered L K s ret)
    (small : -2^63 < ret ∧ ret < 2^63) :
    ∃ t, Reaches P K (fun _ => True) s t ∧ OpenReturned L s t (CType.int.returned ret) (errnoAfter ret) := by
  obtain ⟨a₁,h₁,a₂,h₂,a₃,h₃,e₃,a₄,h₄,a₅,h₅,a₆,h₆,a₇,h₇,a₈,h₈,e₈,a₉,h₉,b₀,i₀,e₀,b₁,i₁,_⟩ := entered.rip ▸ L.openLists
  obtain ⟨t,asked,asks⟩ := open_asks (K := K) L s ret entered a₁ (entered.rip ▸ h₁)
  have compared : P t.core.rip = some (.cmp rax 0,a₂) := asks.rip ▸ h₂
  have quit : P L.open_quit = some (.plain .ret,b₁) := e₀ ▸ i₁
  have forked : (Code.exec K a₃ (Code.exec K a₂ t (.cmp rax 0)) (.jcc .ge L.open_success)).core.rip =
      if 0 ≤ ret then L.open_success else a₃ := by
    have sign : (0 : Word).sle (t.core.reg rax) = decide (0 ≤ ret) := by
      rw [asks.rax,BitVec.sle_eq_decide,toInt_small small]
      rfl
    simp only [Code.exec,ofSub_ge,sign,decide_eq_true_eq]
  have returns (word : Word) : load (put t.core.mem L.errno word) (t.core.reg rsp) = s.core.top := by
    rw [load_apart _ _ (asks.rsp ▸ entered.errno.symm)]
    exact asks.top
  by_cases failed : ret < 0
  · have there : P (Code.exec K a₃ (Code.exec K a₂ t (.cmp rax 0)) (.jcc .ge L.open_success)).core.rip =
        some (.neg rax,a₄) := by
      rw [forked,if_neg (by omega),h₄]
    refine ⟨_,asked.trans (.next compared trivial (.next h₃ trivial (.next there trivial (.next h₅ trivial
      (.next h₆ trivial (.next h₇ trivial (.next h₈ trivial (.next quit trivial (.refl _))))))))),?_⟩
    constructor
    case rip => simp [Code.exec,asks.slot,returns]
    case rsp => simp [Code.exec,asks.rsp]
    case rax => simp [Code.exec,CType.returned,CType.error,convert_error,failed]
    case errno =>
      have negated : (-BitVec.ofInt 64 ret).toInt = -ret := by
        rw [← BitVec.ofInt_neg,toInt_small (by omega)]
      simpa [Code.exec,asks.slot,asks.rax,errnoAfter,failed] using negated
    case kept =>
      intro r member
      obtain ⟨a,b,c,_⟩ := calleeSaved_other member
      simp [Code.exec,a,b,c,asks.kept r member]
  · have there : P (Code.exec K a₃ (Code.exec K a₂ t (.cmp rax 0)) (.jcc .ge L.open_success)).core.rip =
        some (.fetch rdi L.got,a₉) := by
      rw [forked,if_pos (by omega),← e₈,h₉]
    refine ⟨_,asked.trans (.next compared trivial (.next h₃ trivial (.next there trivial (.next i₀ trivial
      (.next i₁ trivial (.refl _)))))),?_⟩
    constructor
    case rip => simp [Code.exec,asks.slot,returns]
    case rsp => simp [Code.exec,asks.rsp]
    case rax => simp [Code.exec,CType.returned,failed,asks.rax,toInt_small small]
    case errno => simp [Code.exec,asks.slot,errnoAfter,failed]
    case kept =>
      intro r member
      obtain ⟨_,b,c,_⟩ := calleeSaved_other member
      simp [Code.exec,b,c,asks.kept r member]

end Unixprog.Libmini
