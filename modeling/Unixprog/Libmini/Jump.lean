import Unixprog.Libmini.Asm

/-! setjmp and longjmp. Between the two calls anything may happen, as long as the
words of env stay. -/
namespace Unixprog.Libmini
open Words X86 Reg
variable {κ : Type} {P : Program} {K : Kernel κ}

/-! The stub of a system call. -/

/-- The registers as the kernel finds them: the stub keeps r10 on the stack and puts rcx into it. -/
def asked (number : Word) (s : State κ) : Reg → Word :=
  Function.update (Function.update (Function.update s.reg rsp (s.reg rsp-8#64)) r10 (s.reg rcx)) rax number

def Steady (r : Reg) : Prop := r ≠ rax ∧ r ≠ rcx ∧ r ≠ r11 ∧ r ≠ rsp

structure Answered (s t : State κ) (answer : Response κ) : Prop where
  rip : t.rip = s.top
  rsp : t.reg rsp = s.reg rsp+8#64
  rax : t.reg rax = answer.rax
  kept : ∀ r, Steady r → t.reg r = s.reg r
  mem : t.mem = answer.mem
  kern : t.kern = answer.kern

theorem gensys_leads (number : Word) (s : State κ) (answer : Response κ) (holds : Holds P s.rip (gensys number))
    (answers : K (asked number s) (put s.mem (s.reg rsp-8#64) (s.reg r10)) s.kern = answer)
    (slot : load answer.mem (s.reg rsp-8#64) = s.reg r10) (above : load answer.mem (s.reg rsp) = s.top) :
    ∃ t, Leads P K s t ∧ Answered s t answer := by
  obtain ⟨a₁,h₁,a₂,h₂,a₃,h₃,a₄,h₄,a₅,h₅,a₆,h₆,_⟩ := holds
  refine ⟨_,leads_exec h₁ (leads_exec h₂ (leads_exec h₃ (leads_exec h₄ (leads_exec h₅ (leads_exec h₆ (.refl _)))))),?_⟩
  simp only [asked] at answers
  constructor
  case rip => simpa [answers] using above
  case rsp => simp
  case rax => simp [answers]
  case kept =>
    rintro r ⟨a,b,c,d⟩
    by_cases same : r = r10
    · subst r
      simp [answers,slot]
    · simp [a,b,c,d,same]
  case mem => simp [answers]
  case kern => simp [answers]

/-- A stub whose system call writes no memory. -/
theorem stub_leads (number : Word) (s : State κ) (holds : Holds P s.rip (gensys number))
    (silence : (K (asked number s) (put s.mem (s.reg rsp-8#64) (s.reg r10)) s.kern).mem =
      put s.mem (s.reg rsp-8#64) (s.reg r10)) :
    ∃ t, Leads P K s t ∧ Answered s t (K (asked number s) (put s.mem (s.reg rsp-8#64) (s.reg r10)) s.kern) := by
  have above : load (put s.mem (s.reg rsp-8#64) (s.reg r10)) (s.reg rsp) = s.top := by
    have apart := load_same s.mem (s.reg rsp-8#64) (s.reg r10) 0 8 (by omega) (by omega) (by omega)
    simpa using apart
  exact gensys_leads number s _ holds rfl (by rw [silence,load_put]) (by rw [silence,above])

/-- rt_sigprocmask with a null oset, or one in the first page, writes no memory. -/
def Silent (K : Kernel κ) : Prop :=
  ∀ regs m k, regs rax = 14#64 → (regs rdx).toNat < 4096 → (K regs m k).mem = m

def MaskCall (K : Kernel κ) (how set oset size : Word) (before after : κ) : Prop :=
  ∃ regs m, regs rax = 14#64 ∧ regs rdi = how ∧ regs rsi = set ∧ regs rdx = oset ∧ regs r10 = size ∧
    after = (K regs m before).kern

theorem sigprocmask_leads (L : Linked P) (silent : Silent K) (s : State κ) (entry : s.rip = L.sysRtSigprocmask)
    (low : (s.reg rdx).toNat < 4096) : ∃ t, Leads P K s t ∧ t.rip = s.top ∧ t.reg rsp = s.reg rsp+8#64 ∧
      (∀ r, Steady r → t.reg r = s.reg r) ∧ t.mem = put s.mem (s.reg rsp-8#64) (s.reg r10) ∧
      MaskCall K (s.reg rdi) (s.reg rsi) (s.reg rdx) (s.reg rcx) s.kern t.kern := by
  have silence := silent (asked 14#64 s) (put s.mem (s.reg rsp-8#64) (s.reg r10)) s.kern rfl low
  obtain ⟨t,led,answered⟩ := stub_leads 14#64 s (entry ▸ L.stubHolds) silence
  refine ⟨t,led,answered.rip,answered.rsp,answered.kept,answered.mem.trans silence,?_⟩
  exact ⟨asked 14#64 s,_,rfl,rfl,rfl,rfl,rfl,answered.kern⟩

/-! setjmp. -/

def savedRegs : List Reg := [rbx,rsp,rbp,r12,r13,r14,r15]

structure Saves (m : Bytes) (env : Word) (s : State κ) : Prop where
  regs : ∀ i r, savedRegs[i]? = some r → load m (env+BitVec.ofNat 64 (8*i)) = s.reg r
  pc : load m (env+56#64) = s.top

/-- setjmp, entered in `s`, at its call of the stub. The stack grows down to `B`. -/
structure SetjmpAsks (L : Linked P) (s t : State κ) (B : Word) : Prop where
  rip : t.rip = L.sysRtSigprocmask
  rsp : t.reg rsp = B+8#64
  rdi : t.reg rdi = 0#64
  rsi : t.reg rsi = 0#64
  rdx : t.reg rdx = 64#64
  rcx : t.reg rcx = 8#64
  kept : ∀ r, Steady r → r ≠ .rdi → r ≠ .rsi → r ≠ .rdx → t.reg r = s.reg r
  kern : t.kern = s.kern
  pushed : load t.mem (B+24#64) = s.reg .rdx ∧ load t.mem (B+32#64) = s.reg .rsi ∧
    load t.mem (B+40#64) = s.reg .rdi ∧ load t.mem (B+48#64) = s.top
  saves : Saves t.mem (s.reg .rdi) s
  frame : ∀ x, Outside x (s.reg .rdi) 64 → Outside x B 48 → t.mem x = s.mem x
  tail : Holds P t.top [.pop (.reg .rcx),.pop (.reg .rdx),.pop (.reg .rsi),.pop (.reg .rdi),.xor rax rax,.ret]

theorem setjmp_asks (L : Linked P) (s : State κ) (B : Word) (entry : s.rip = L.setjmp)
    (bottom : s.reg rsp = B+48#64) (apart : Apart (s.reg rdi) 64 B 56) :
    ∃ t, Leads P K s t ∧ SetjmpAsks L s t B := by
  obtain ⟨a₁,h₁,a₂,h₂,a₃,h₃,a₄,h₄,a₅,h₅,a₆,h₆,a₇,h₇,a₈,h₈,a₉,h₉,b₀,i₀,b₁,i₁,b₂,i₂,b₃,i₃,b₄,i₄,b₅,i₅,b₆,i₆,
    b₇,i₇,b₈,i₈,tail⟩ := entry ▸ L.setjmpHolds
  refine ⟨_,leads_exec h₁ (leads_exec h₂ (leads_exec h₃ (leads_exec h₄ (leads_exec h₅ (leads_exec h₆
    (leads_exec h₇ (leads_exec h₈ (leads_exec h₉ (leads_exec i₀ (leads_exec i₁ (leads_exec i₂ (leads_exec i₃
    (leads_exec i₄ (leads_exec i₅ (leads_exec i₆ (leads_exec i₇ (leads_exec i₈ (.refl _)))))))))))))))))),?_⟩
  constructor
  case rip => simp
  case rsp => simp [bottom]
  case rdi => simp
  case rsi => simp
  case rdx => simp
  case rcx => simp
  case kept =>
    rintro r ⟨_,b,_,d⟩ e f g
    simp [b,d,e,f,g]
  case kern => simp
  case pushed =>
    simp [-BitVec.add_zero,BitVec.add_assoc,bottom,load_same,load_parts _ _ apart.symm]
  case saves =>
    refine ⟨?_,?_⟩
    · intro i r listed
      rcases i with _ | _ | _ | _ | _ | _ | _ | i <;> simp [savedRegs] at listed <;> subst r <;>
        simp [-BitVec.add_zero,bottom,load_same,load_parts _ _ apart]
    · simp [-BitVec.add_zero,BitVec.add_assoc,bottom,load_parts _ _ apart,load_parts _ _ apart.symm]
  case frame =>
    intro x away below
    simp [-BitVec.add_zero,bottom,put_part _ _ _ x _ _ away,put_part _ _ _ x _ _ below]
  case tail => simpa [bottom] using tail

structure SetjmpReturns (K : Kernel κ) (s t : State κ) (B : Word) : Prop where
  rip : t.rip = s.top
  rsp : t.reg rsp = s.reg rsp+8#64
  rax : t.reg rax = 0#64
  kept : ∀ r, Steady r → t.reg r = s.reg r
  saves : Saves t.mem (s.reg .rdi) s
  frame : ∀ x, Outside x (s.reg .rdi) 64 → Outside x B 48 → t.mem x = s.mem x
  call : MaskCall K 0#64 0#64 64#64 8#64 s.kern t.kern

theorem setjmp_leads (L : Linked P) (silent : Silent K) (s : State κ) (B : Word) (entry : s.rip = L.setjmp)
    (bottom : s.reg rsp = B+48#64) (apart : Apart (s.reg rdi) 64 B 56) :
    ∃ t, Leads P K s t ∧ SetjmpReturns K s t B := by
  obtain ⟨t,asking,asks⟩ := setjmp_asks (K := K) L s B entry bottom apart
  obtain ⟨u,answering,rip,rsp',kept,mem,call⟩ := sigprocmask_leads L silent t asks.rip (by simp [asks.rdx])
  obtain ⟨pushed₁,pushed₂,pushed₃,top⟩ := asks.pushed
  obtain ⟨a₁,h₁,a₂,h₂,a₃,h₃,a₄,h₄,a₅,h₅,a₆,h₆,_⟩ := rip ▸ asks.tail
  -- The stub wrote below everything that is popped, and away from env.
  have below (j : Nat) (later : 8 ≤ j) (small : j ≤ 48) : load u.mem (B+BitVec.ofNat 64 j) =
      load t.mem (B+BitVec.ofNat 64 j) := by
    have slot := load_same t.mem B (t.reg r10) 0 j (by omega) (by omega) (by omega)
    simpa [mem,asks.rsp] using slot
  have env (i : Nat) (inside : i+8 ≤ 64) : load u.mem (s.reg rdi+BitVec.ofNat 64 i) =
      load t.mem (s.reg rdi+BitVec.ofNat 64 i) := by
    have slot := load_parts t.mem (t.reg r10) apart i 0 inside (by omega)
    simpa [mem,asks.rsp] using slot
  refine ⟨_,asking.trans (answering.trans (leads_exec h₁ (leads_exec h₂ (leads_exec h₃ (leads_exec h₄
    (leads_exec h₅ (leads_exec h₆ (.refl _)))))))),?_⟩
  rw [asks.rsp] at rsp'
  constructor
  case rip => simpa [rsp',BitVec.add_assoc] using (below 48 (by omega) (by omega)).trans top
  case rsp => simp [rsp',bottom,BitVec.add_assoc]
  case rax => simp
  case kept =>
    rintro r ⟨a,b,c,d⟩
    by_cases first : r = rdi
    · subst r
      simpa [rsp',BitVec.add_assoc] using (below 40 (by omega) (by omega)).trans pushed₃
    by_cases second : r = rsi
    · subst r
      simpa [rsp',BitVec.add_assoc] using (below 32 (by omega) (by omega)).trans pushed₂
    by_cases third : r = rdx
    · subst r
      simpa [rsp',BitVec.add_assoc] using (below 24 (by omega) (by omega)).trans pushed₁
    · simp [a,b,d,first,second,third,kept r ⟨a,b,c,d⟩,asks.kept r ⟨a,b,c,d⟩ first second third]
  case saves =>
    refine ⟨?_,?_⟩
    · intro i r listed
      have bound : i < 7 := (List.getElem?_eq_some_iff.mp listed).1
      exact (env (8*i) (by omega)).trans (asks.saves.regs i r listed)
    · exact (env 56 (by omega)).trans asks.saves.pc
  case frame =>
    intro x away under
    have part := put_part t.mem B (t.reg r10) x 0 48 under (by omega)
    simp only [asks.rsp,add_sub_literal] at mem
    refine (congrFun mem x).trans (Eq.trans ?_ (asks.frame x away under))
    exact part
  case call =>
    rw [asks.rdi,asks.rsi,asks.rdx,asks.rcx,asks.kern] at call
    exact call

/-! longjmp. -/

/-- What longjmp, entered in `s`, leaves when it resumes. `B` is 48 below the resumed rsp. -/
structure LongjmpReturns (K : Kernel κ) (s t : State κ) (B : Word) : Prop where
  rip : t.rip = load s.mem (s.reg .rdi+56#64)
  rsp : t.reg rsp = B+48#64
  rax : t.reg rax = s.reg .rsi
  regs : ∀ i r, savedRegs[i]? = some r → r ≠ .rsp → t.reg r = load s.mem (s.reg .rdi+BitVec.ofNat 64 (8*i))
  frame : ∀ x, Outside x B 48 → t.mem x = s.mem x
  call : MaskCall K 2#64 66#64 0#64 (s.reg .rcx) s.kern t.kern

structure LongjmpAsks (L : Linked P) (s t : State κ) (B : Word) : Prop where
  rip : t.rip = L.sysRtSigprocmask
  rsp : t.reg rsp = B+8#64
  rdi : t.reg rdi = 2#64
  rsi : t.reg rsi = 66#64
  rdx : t.reg rdx = 0#64
  rcx : t.reg rcx = s.reg .rcx
  regs : ∀ i r, savedRegs[i]? = some r → r ≠ .rsp → t.reg r = load s.mem (s.reg .rdi+BitVec.ofNat 64 (8*i))
  kern : t.kern = s.kern
  pushed : load t.mem (B+24#64) = s.reg .rsi ∧ load t.mem (B+40#64) = load s.mem (s.reg .rdi+56#64)
  frame : ∀ x, Outside x B 48 → t.mem x = s.mem x
  tail : Holds P t.top [.pop (.reg .rdx),.pop (.reg .rsi),.pop (.reg .rdi),.mov (.reg rax) (.reg .rsi),.ret]

theorem longjmp_asks (L : Linked P) (s : State κ) (B : Word) (entry : s.rip = L.longjmp)
    (stack : load s.mem (s.reg rdi+8#64) = B+40#64) : ∃ t, Leads P K s t ∧ LongjmpAsks L s t B := by
  obtain ⟨a₁,h₁,a₂,h₂,a₃,h₃,a₄,h₄,a₅,h₅,a₆,h₆,a₇,h₇,a₈,h₈,a₉,h₉,b₀,i₀,b₁,i₁,b₂,i₂,b₃,i₃,b₄,i₄,b₅,i₅,b₆,i₆,
    tail⟩ := entry ▸ L.longjmpHolds
  refine ⟨_,leads_exec h₁ (leads_exec h₂ (leads_exec h₃ (leads_exec h₄ (leads_exec h₅ (leads_exec h₆
    (leads_exec h₇ (leads_exec h₈ (leads_exec h₉ (leads_exec i₀ (leads_exec i₁ (leads_exec i₂ (leads_exec i₃
    (leads_exec i₄ (leads_exec i₅ (leads_exec i₆ (.refl _)))))))))))))))),?_⟩
  constructor
  case rip => simp
  case rsp => simp [stack,BitVec.add_assoc]
  case rdi => simp
  case rsi => simp
  case rdx => simp
  case rcx => simp
  case regs =>
    intro i r listed other
    rcases i with _ | _ | _ | _ | _ | _ | _ | i <;> simp [savedRegs] at listed <;> subst r <;> simp at other ⊢
  case kern => simp
  case pushed => simp [-BitVec.add_zero,BitVec.add_assoc,stack,load_same]
  case frame =>
    intro x under
    simp [-BitVec.add_zero,BitVec.add_assoc,stack,put_part _ _ _ x _ _ under]
  case tail => simpa [BitVec.add_assoc,stack] using tail

theorem longjmp_leads (L : Linked P) (silent : Silent K) (s : State κ) (B : Word) (entry : s.rip = L.longjmp)
    (stack : load s.mem (s.reg rdi+8#64) = B+40#64) : ∃ t, Leads P K s t ∧ LongjmpReturns K s t B := by
  obtain ⟨t,asking,asks⟩ := longjmp_asks (K := K) L s B entry stack
  obtain ⟨u,answering,rip,rsp',kept,mem,call⟩ := sigprocmask_leads L silent t asks.rip (by simp [asks.rdx])
  obtain ⟨pushed,pc⟩ := asks.pushed
  obtain ⟨a₁,h₁,a₂,h₂,a₃,h₃,a₄,h₄,a₅,h₅,_⟩ := rip ▸ asks.tail
  have below (j : Nat) (later : 8 ≤ j) (small : j ≤ 48) : load u.mem (B+BitVec.ofNat 64 j) =
      load t.mem (B+BitVec.ofNat 64 j) := by
    have slot := load_same t.mem B (t.reg r10) 0 j (by omega) (by omega) (by omega)
    simpa [mem,asks.rsp] using slot
  refine ⟨_,asking.trans (answering.trans (leads_exec h₁ (leads_exec h₂ (leads_exec h₃ (leads_exec h₄
    (leads_exec h₅ (.refl _))))))),?_⟩
  rw [asks.rsp] at rsp'
  constructor
  case rip => simpa [rsp',BitVec.add_assoc] using (below 40 (by omega) (by omega)).trans pc
  case rsp => simp [rsp',BitVec.add_assoc]
  case rax => simpa [rsp',BitVec.add_assoc] using (below 24 (by omega) (by omega)).trans pushed
  case regs =>
    intro i r listed other
    have steady : Steady r ∧ r ≠ rdi ∧ r ≠ rsi ∧ r ≠ rdx := by
      have member := List.mem_of_getElem? listed
      simp only [savedRegs,List.mem_cons,List.not_mem_nil,or_false] at member
      rcases member with rfl | rfl | rfl | rfl | rfl | rfl | rfl <;> simp [Steady] at other ⊢
    obtain ⟨⟨a,b,c,d⟩,e,f,g⟩ := steady
    simp [a,d,e,f,g,kept r ⟨a,b,c,d⟩,asks.regs i r listed other]
  case frame =>
    intro x under
    simp only [asks.rsp,add_sub_literal] at mem
    refine (congrFun mem x).trans (Eq.trans ?_ (asks.frame x under))
    exact put_part t.mem B (t.reg r10) x 0 48 under (by omega)
  case call =>
    rw [asks.rdi,asks.rsi,asks.rdx,asks.rcx,asks.kern] at call
    exact call

/-! Both together. -/

def calleeSaved : List Reg := [rbx,rbp,r12,r13,r14,r15]

structure Resumes (s : State κ) (after value : Word) (t : State κ) : Prop where
  rip : t.rip = after
  rsp : t.reg rsp = s.reg rsp
  rax : t.reg rax = value
  kept : ∀ r ∈ calleeSaved, t.reg r = s.reg r

theorem calleeSaved_steady (r : Reg) (member : r ∈ calleeSaved) :
    Steady r ∧ r ≠ rsp ∧ ∃ i : Nat, savedRegs[i]? = some r := by
  simp only [calleeSaved,List.mem_cons,List.not_mem_nil,or_false] at member
  rcases member with rfl | rfl | rfl | rfl | rfl | rfl
  · exact ⟨by simp [Steady],by simp,0,rfl⟩
  · exact ⟨by simp [Steady],by simp,2,rfl⟩
  · exact ⟨by simp [Steady],by simp,3,rfl⟩
  · exact ⟨by simp [Steady],by simp,4,rfl⟩
  · exact ⟨by simp [Steady],by simp,5,rfl⟩
  · exact ⟨by simp [Steady],by simp,6,rfl⟩

def entered (s : State κ) (entry after : Word) : State κ := {s.push after with rip := entry}

theorem called_leads (L : Linked P) (silent : Silent K) (s : State κ) (after : Word)
    (called : P s.rip = some (.call L.setjmp,after)) (apart : Apart (s.reg rdi) 64 (s.reg rsp-56#64) 56) :
    ∃ t, Leads P K s t ∧ SetjmpReturns K (entered s L.setjmp after) t (s.reg rsp-56#64) := by
  have bottom : (entered s L.setjmp after).reg rsp = s.reg rsp-56#64+48#64 := by
    rw [sub_add_ofNat _ 56 48 (by omega)]
    simp [entered]
  obtain ⟨t,led,returns⟩ := setjmp_leads (K := K) L silent (entered s L.setjmp after) (s.reg rsp-56#64) rfl bottom
    (by simpa [entered] using apart)
  exact ⟨t,leads_exec called led,returns⟩

theorem entered_top (s : State κ) (entry after : Word) : (entered s entry after).top = after := by
  simp [entered]

theorem SetjmpReturns.resumes {s t : State κ} {entry after B : Word}
    (returns : SetjmpReturns K (entered s entry after) t B) : Resumes s after 0#64 t := by
  constructor
  case rip => exact returns.rip.trans (entered_top s entry after)
  case rsp => simpa [entered] using returns.rsp
  case rax => exact returns.rax
  case kept =>
    intro r member
    obtain ⟨steady,other,_⟩ := calleeSaved_steady r member
    simpa [entered,other] using returns.kept r steady

structure JumpsTo (L : Linked P) (s t u : State κ) : Prop where
  rip : u.rip = L.longjmp
  env : u.reg rdi = s.reg .rdi
  words : ∀ i < 8, load u.mem (s.reg .rdi+BitVec.ofNat 64 (8*i)) = load t.mem (s.reg .rdi+BitVec.ofNat 64 (8*i))

theorem jumped_leads (L : Linked P) (silent : Silent K) (s t u : State κ) (after B : Word)
    (returns : SetjmpReturns K (entered s L.setjmp after) t B) (jumps : JumpsTo L s t u) :
    ∃ v, Leads P K u v ∧ Resumes s after (u.reg rsi) v ∧ LongjmpReturns K u v (s.reg rsp-48#64) := by
  have same : (entered s L.setjmp after).reg rdi = s.reg rdi := by simp [entered]
  have saves := returns.saves
  rw [same] at saves
  have stack : load u.mem (u.reg rdi+8#64) = s.reg rsp-48#64+40#64 := by
    have word := (jumps.words 1 (by omega)).trans (saves.regs 1 rsp rfl)
    rw [jumps.env]
    rw [sub_add_ofNat _ 48 40 (by omega)]
    exact word.trans (by simp [entered])
  obtain ⟨v,led,jumped⟩ := longjmp_leads (K := K) L silent u (s.reg rsp-48#64) jumps.rip stack
  refine ⟨v,led,?_,jumped⟩
  constructor
  case rip =>
    rw [jumped.rip,jumps.env]
    exact (jumps.words 7 (by omega)).trans (saves.pc.trans (entered_top s L.setjmp after))
  case rsp => exact jumped.rsp.trans (BitVec.sub_add_cancel _ _)
  case rax => exact jumped.rax
  case kept =>
    intro r member
    obtain ⟨_,other,i,listed⟩ := calleeSaved_steady r member
    have bound : i < 7 := (List.getElem?_eq_some_iff.mp listed).1
    rw [jumped.regs i r listed other,jumps.env,jumps.words i (by omega),saves.regs i r listed]
    simp [entered,other]

/-- setjmp returns 0 with the caller's registers, and longjmp leads back there with
its second argument, changing nothing but the 48 bytes below the resumed rsp. -/
theorem longjmp_resumes (L : Linked P) (silent : Silent K) (s : State κ) (after : Word)
    (called : P s.rip = some (.call L.setjmp,after)) (apart : Apart (s.reg rdi) 64 (s.reg rsp-56#64) 56) :
    ∃ t, Leads P K s t ∧ Resumes s after 0#64 t ∧ ∀ u, JumpsTo L s t u →
      ∃ v, Leads P K u v ∧ Resumes s after (u.reg rsi) v ∧
        ∀ x, Outside x (s.reg rsp-48#64) 48 → v.mem x = u.mem x := by
  obtain ⟨t,led,returns⟩ := called_leads (K := K) L silent s after called apart
  refine ⟨t,led,returns.resumes,?_⟩
  intro u jumps
  obtain ⟨v,led',resumes,jumped⟩ := jumped_leads L silent s t u after _ returns jumps
  exact ⟨v,led',resumes,jumped.frame⟩

def sampleProgram : Program := fun a =>
  let routine := match a.toNat/0x1000 with
    | 1 => setjmp 0x3000
    | 2 => longjmp 0x3000
    | 3 => sysRtSigprocmask
    | 4 => [.call 0x1000]
    | _ => []
  (routine[a.toNat%0x1000]?).map fun i => (i,a+1)

def sampleLinked : Linked sampleProgram where
  setjmp := 0x1000
  longjmp := 0x2000
  sysRtSigprocmask := 0x3000
  setjmpHolds := by repeat (first | exact trivial | refine ⟨_,rfl,?_⟩)
  longjmpHolds := by repeat (first | exact trivial | refine ⟨_,rfl,?_⟩)
  stubHolds := by repeat (first | exact trivial | refine ⟨_,rfl,?_⟩)

def sampleState (kern : κ) : State κ where
  rip := 0x4000
  reg r := if r = rdi then 0x8000 else if r = rsp then 0x7000 else 0
  mem _ := 0
  kern := kern

theorem sample_apart (kern : κ) (n : Nat) (small : n ≤ 4096) :
    Apart ((sampleState kern).reg rdi) n ((sampleState kern).reg rsp-56#64) 56 := by
  have env : (sampleState kern).reg rdi = 0x6000#64+0x2000#64 := rfl
  have stack : (sampleState kern).reg rsp-56#64 = 0x6000#64+0xfc8#64 := by
    rw [show (sampleState kern).reg rsp = 0x7000#64 from rfl]
    decide
  rw [env,stack]
  exact apart_same 0x6000#64 0x2000 0xfc8 n 56 (by omega) (by omega) (by omega)

def rejecting : Kernel Unit := fun _ m _ => ⟨-14,0,0,m,()⟩

def jumpAtOnce (t : State κ) : State κ :=
  {t with rip := 0x2000,reg := Function.update (Function.update t.reg rdi 0x8000) rsi 5}

theorem longjmp_resumes_sample : ∃ t v, Leads sampleProgram rejecting (sampleState ()) t ∧ t.reg rax = 0 ∧
    Leads sampleProgram rejecting (jumpAtOnce t) v ∧ v.rip = 0x4001 ∧ v.reg rax = 5 := by
  obtain ⟨t,led,resumes,jump⟩ := longjmp_resumes (K := rejecting) sampleLinked (fun _ _ _ _ _ => rfl)
    (sampleState ()) 0x4001 rfl (sample_apart () 64 (by omega))
  obtain ⟨v,led',resumes',_⟩ := jump (jumpAtOnce t) ⟨rfl,rfl,fun _ _ => rfl⟩
  exact ⟨t,v,led,resumes.rax,led',resumes'.rip,resumes'.rax⟩

end Unixprog.Libmini
