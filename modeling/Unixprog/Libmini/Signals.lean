import Unixprog.Library.Structs
import Unixprog.Libmini.Wrappers

/-! signal, sigaction and sigprocmask of libmini.c with the memory that they work on. -/
namespace Unixprog.Libmini
open Words X86

def SIGKILL : Int := 9
def SIGSTOP : Int := 19
def SIG_BLOCK : BitVec 32 := 0
def SIG_UNBLOCK : BitVec 32 := 1
def SIG_SETMASK : BitVec 32 := 2
def SIG_ERR : Word := -1
def SA_RESTART : BitVec 32 := 0x10000000

/-- What stands in a `struct sigaction`, as the kernel reads it: the flags with the padding behind them. -/
structure Action where
  handler : Word
  flags : Word
  restorer : Word
  mask : Word

def actionAt (m : Memory) (a : Word) : Option Action := do
  let handler ← fetch m (wordAt a 0)
  let flags ← fetch m (wordAt a 1)
  let restorer ← fetch m (wordAt a 2)
  let mask ← fetch m (wordAt a 3)
  some ⟨handler,flags,restorer,mask⟩

/-- The stubs, as far as they are used here, and the address of `__myrt`. -/
structure SignalKernel (κ : Type) where
  myrt : Word
  sys_rt_sigaction : κ → Memory → Int → Word → Word → Nat → Int × Memory × κ
  sys_rt_sigprocmask : κ → Memory → BitVec 32 → Word → Word → Nat → Int × Memory × κ

structure Process (κ : Type) where
  space : Space
  kern : κ

section Calls
variable {κ : Type}

/-- `WRAPPER_RETval(int)` after a system call. -/
def wrapped (answer : Int × Memory × κ) : Int × Process κ :=
  (CType.int.returned answer.1,⟨⟨answer.2.1,errnoAfter answer.1⟩,answer.2.2⟩)

def flagsOf (word : Word) : BitVec 32 := word.setWidth 32

/-- The word of `sa_flags` with these flags; its upper half is padding and stays. -/
def withFlags (word : Word) (flags : BitVec 32) : Word := word.extractLsb' 32 32 ++ flags

def Process.sigprocmask (K : SignalKernel κ) (how : BitVec 32) (set oldset : Word) (p : Process κ) : Int × Process κ :=
  wrapped (K.sys_rt_sigprocmask p.kern p.space.mem how set oldset sizeofSigset)

/-- Result and process after; `none` when the process dies of a fault. -/
def Process.sigaction (K : SignalKernel κ) (signum : Int) (act oldact : Word) (p : Process κ) : Option (Int × Process κ) := do
  let flags ← fetch p.space.mem (wordAt act 1)
  let mem ← store p.space.mem (wordAt act 1) (withFlags flags (flagsOf flags ||| SA_RESTORER))
  let mem ← store mem (wordAt act 2) K.myrt
  some (wrapped (K.sys_rt_sigaction p.kern mem signum act oldact sizeofSigset))

/-- Where the locals `act` and `oact` of signal stand. -/
structure Frame where
  act : Word
  oact : Word

def Process.signal (K : SignalKernel κ) (frame : Frame) (signum : Int) (handler : Word) (p : Process κ) :
    Option (Word × Process κ) :=
  if signum ≤ 0 ∨ NSIG ≤ signum then some (SIG_ERR,{p with space.errno := EINVAL})
  else do
    let mem ← store p.space.mem (wordAt frame.act 0) handler
    let (_,space) ← sigemptyset (wordAt frame.act 3) {p.space with mem := mem}
    let (_,space) ← sigaddset (wordAt frame.act 3) signum space
    let flags ← fetch space.mem (wordAt frame.act 1)
    let mem ← store space.mem (wordAt frame.act 1) (withFlags flags SA_RESTART)
    let (result,p) ← Process.sigaction K signum frame.act frame.oact {p with space := {space with mem := mem}}
    if result < 0 then some (SIG_ERR,p)
    else do
      let oact ← fetch p.space.mem (wordAt frame.oact 0)
      some (oact,p)

end Calls

/-! The kernel. -/

/-- The signals that cannot be blocked. -/
def unblockable : Word := sigmask SIGKILL ||| sigmask SIGSTOP

/-- The mask that rt_sigprocmask sets. -/
def masked (how : BitVec 32) (set blocked : Word) : Word :=
  let set := set &&& ~~~unblockable
  if how = SIG_BLOCK then blocked ||| set
  else if how = SIG_UNBLOCK then blocked &&& ~~~set
  else set

def KnownHow (how : BitVec 32) : Prop := how = SIG_BLOCK ∨ how = SIG_UNBLOCK ∨ how = SIG_SETMASK

/-- What the kernel keeps of an action: the flags that it knows, and of the mask what can be blocked. -/
def Action.kept (keeps : Word) (a : Action) : Action :=
  {a with flags := a.flags &&& keeps,mask := a.mask &&& ~~~unblockable}

/-- A kernel that follows rt_sigaction and rt_sigprocmask. `action` and `blocked` are its
dispositions and its mask, `keeps` are the flags that it knows. -/
structure SignalKernel.Follows {κ : Type} (K : SignalKernel κ) (action : κ → Int → Action) (blocked : κ → Word)
    (keeps : Word) : Prop where
  flags : flagsOf keeps &&& (SA_RESTART ||| SA_RESTORER) = SA_RESTART ||| SA_RESTORER
  installs : ∀ k m sig act oact new, Admissible sig → sig ≠ SIGKILL → sig ≠ SIGSTOP → act ≠ 0 → oact ≠ 0 →
    actionAt m act = some new → (∀ i < 32, (m (oact+BitVec.ofNat 64 i)).isSome) →
    ∃ m' k', K.sys_rt_sigaction k m sig act oact 8 = (0,m',k') ∧ action k' = Function.update (action k) sig (new.kept keeps) ∧
      blocked k' = blocked k ∧ actionAt m' oact = some (action k sig) ∧
      (∀ x, (m' x).isSome = (m x).isSome) ∧ ∀ x, Outside x oact 32 → m' x = m x
  refuses : ∀ k m sig act oact new, sig = SIGKILL ∨ sig = SIGSTOP → act ≠ 0 → actionAt m act = some new →
    K.sys_rt_sigaction k m sig act oact 8 = (-EINVAL,m,k)
  masks : ∀ k m how set oset word, KnownHow how → set ≠ 0 → fetch m set = some word → (oset ≠ 0 → Mapped m oset) →
    ∃ m' k', K.sys_rt_sigprocmask k m how set oset 8 = (0,m',k') ∧ blocked k' = masked how word (blocked k) ∧
      action k' = action k ∧ if oset = 0 then m' = m else store m oset (blocked k) = some m'
  tells : ∀ k m how oset, (oset ≠ 0 → Mapped m oset) →
    ∃ m' k', K.sys_rt_sigprocmask k m how 0 oset 8 = (0,m',k') ∧ blocked k' = blocked k ∧ action k' = action k ∧
      if oset = 0 then m' = m else store m oset (blocked k) = some m'
  unknown : ∀ k m how set oset word, ¬ KnownHow how → set ≠ 0 → fetch m set = some word →
    K.sys_rt_sigprocmask k m how set oset 8 = (-EINVAL,m,k)

/-! What the calls mean: sets of signals, a mask and a table of handlers. -/

/-- `own` are the signals whose disposition was set by signal. -/
structure Signals (ι : Type) where
  sets : ι → Option (Set Int)
  mask : Set Int
  handlers : Int → Word
  own : Set Int

inductive SignalCall (ι : Type)
  | change (v : ι) (call : Call)
  | sigismember (v : ι) (signum : Int)
  | sigprocmask (how : BitVec 32) (set oldset : Option ι)
  | signal (frame : Frame) (signum : Int) (handler : Word)

def Settable (signum : Int) : Prop := Admissible signum ∧ signum ≠ SIGKILL ∧ signum ≠ SIGSTOP

def maskOf (how : BitVec 32) (A mask : Set Int) : Set Int :=
  let A := A \ {SIGKILL,SIGSTOP}
  if how = SIG_BLOCK then mask ∪ A
  else if how = SIG_UNBLOCK then mask \ A
  else A

section Meaning
variable {ι : Type} [DecidableEq ι]

/-- The old mask is stored where there is a set for it. -/
def Signals.saved (M : Signals ι) : Option ι → Signals ι
  | none => M
  | some v => {M with sets := Function.update M.sets v (some M.mask)}

/-- A call gives a result and leaves errno. -/
inductive Means : SignalCall ι → Signals ι → Int → Int → Signals ι → Prop
  | changed (v : ι) (call : Call) (M : Signals ι) (plain : ∀ ptr, call ≠ .sigfillset ptr) (valid : call.Valid) :
      Means (.change v call) M 0 0 {M with sets := Function.update M.sets v (call.build (M.sets v))}
  | unchanged (v : ι) (call : Call) (M : Signals ι) (invalid : ¬ call.Valid) : Means (.change v call) M (-1) EINVAL M
  | member (v : ι) (signum : Int) (A : Set Int) (M : Signals ι) (known : M.sets v = some A) (admissible : Admissible signum)
      (inside : signum ∈ A) : Means (.sigismember v signum) M 1 0 M
  | other (v : ι) (signum : Int) (A : Set Int) (M : Signals ι) (known : M.sets v = some A) (admissible : Admissible signum)
      (outside : signum ∉ A) : Means (.sigismember v signum) M 0 0 M
  | barred (v : ι) (signum : Int) (M : Signals ι) (invalid : ¬ Admissible signum) :
      Means (.sigismember v signum) M (-1) EINVAL M
  | masked (how : BitVec 32) (v : ι) (oldset : Option ι) (A : Set Int) (M : Signals ι) (known : KnownHow how)
      (told : M.sets v = some A) :
      Means (.sigprocmask how (some v) oldset) M 0 0 {M.saved oldset with mask := maskOf how A M.mask}
  | asked (how : BitVec 32) (oldset : Option ι) (M : Signals ι) : Means (.sigprocmask how none oldset) M 0 0 (M.saved oldset)
  | confused (how : BitVec 32) (v : ι) (oldset : Option ι) (M : Signals ι) (unknown : ¬ KnownHow how) :
      Means (.sigprocmask how (some v) oldset) M (-1) EINVAL M
  | handled (frame : Frame) (signum : Int) (handler : Word) (M : Signals ι) (settable : Settable signum) :
      Means (.signal frame signum handler) M (M.handlers signum).toNat 0
        {M with handlers := Function.update M.handlers signum handler,own := insert signum M.own}
  | unhandled (frame : Frame) (signum : Int) (handler : Word) (M : Signals ι) (fixed : ¬ Settable signum) :
      Means (.signal frame signum handler) M SIG_ERR.toNat EINVAL M

inductive MeansAll : List (SignalCall ι) → Signals ι → List (Int × Int) → Signals ι → Prop
  | nil (M : Signals ι) : MeansAll [] M [] M
  | cons {call : SignalCall ι} {calls : List (SignalCall ι)} {M N L : Signals ι} {result errno : Int}
      {answers : List (Int × Int)} (first : Means call M result errno N) (later : MeansAll calls N answers L) :
      MeansAll (call::calls) M ((result,errno)::answers) L

end Meaning

/-! The calls on sets that stand in memory. -/

/-- Where the sets stand, and what memory the process has. -/
structure Layout (ι : Type) where
  addr : ι → Word
  mapped : Word → Prop
  given : ∀ v, addr v ≠ 0
  words : ∀ v, Holds mapped (addr v) 8
  apart : ∀ v u, v ≠ u → Apart (addr v) 8 (addr u) 8

section Refinement
variable {ι κ : Type}

def Layout.pointer (L : Layout ι) : Option ι → Word
  | none => 0
  | some v => L.addr v

/-- The locals of signal are apart from the sets. -/
structure Frame.Fits (L : Layout ι) (frame : Frame) : Prop where
  act : Holds L.mapped frame.act 32
  oact : Holds L.mapped frame.oact 32
  given : frame.act ≠ 0 ∧ wordAt frame.act 3 ≠ 0 ∧ frame.oact ≠ 0
  sets : ∀ v, Apart (L.addr v) 8 frame.act 32 ∧ Apart (L.addr v) 8 frame.oact 32

def SignalCall.Fits (L : Layout ι) : SignalCall ι → Prop
  | .signal frame _ _ => frame.Fits L
  | _ => True

def SignalCall.perform (K : SignalKernel κ) (L : Layout ι) : SignalCall ι → Process κ → Option (Int × Process κ)
  | .change v call,p => (call.perform (L.addr v) p.space).map fun r => (r.1,{p with space := r.2})
  | .sigismember v signum,p => (Libmini.sigismember (L.addr v) signum p.space).map fun r => (r.1,{p with space := r.2})
  | .sigprocmask how set oldset,p => some (p.sigprocmask K how (L.pointer set) (L.pointer oldset))
  | .signal frame signum handler,p => (p.signal K frame signum handler).map fun r => (r.1.toNat,r.2)

/-- The results of the calls, each with errno after it. -/
def SignalCall.performAll (K : SignalKernel κ) (L : Layout ι) : List (SignalCall ι) → Process κ →
    Option (List (Int × Int) × Process κ)
  | [],p => some ([],p)
  | call::calls,p => do
    let (result,p) ← call.perform K L p
    let (answers,q) ← SignalCall.performAll K L calls p
    some ((result,p.space.errno)::answers,q)

/-- The action that signal installs: the signal is blocked in its handler, calls are
restarted, and the handler returns by way of `__myrt`. -/
structure Installed (K : SignalKernel κ) (signum : Int) (a : Action) : Prop where
  flags : flagsOf a.flags = SA_RESTART ||| SA_RESTORER
  restorer : a.restorer = K.myrt
  mask : a.mask = sigmask signum

variable (K : SignalKernel κ) (action : κ → Int → Action) (blocked : κ → Word) (L : Layout ι)

structure Related (p : Process κ) (M : Signals ι) : Prop where
  present : ∀ x, (p.space.mem x).isSome ↔ L.mapped x
  sets : ∀ v A, M.sets v = some A → Represents (L.addr v) p.space.mem A
  mask : ∀ n, Admissible n → ((blocked p.kern).getLsbD (bitOf n) = true ↔ n ∈ M.mask)
  handlers : ∀ n, (action p.kern n).handler = M.handlers n
  own : ∀ n ∈ M.own, Installed K n (action p.kern n)

variable {K action blocked L} {p : Process κ} {M : Signals ι}

theorem represents_within {places : Word → Prop} {m m' : Memory} (within : Within places m m') {a : Word}
    (clear : ∀ i < 8, ¬ places (a+BitVec.ofNat 64 i)) {A : Set Int} (represents : Represents a m A) : Represents a m' A := by
  intro signum admissible
  rw [← represents signum admissible,BitAt,BitAt]
  have small := admissible_bit admissible
  rw [within.same _ (clear (bitOf signum/8) (by omega))]

/-! The calls on one set. -/

theorem sigemptyset_word {a : Word} {s : Space} (given : a ≠ 0) (mapped : Mapped s.mem a) :
    ∃ mem, sigemptyset a s = some (0,⟨mem,0⟩) ∧ fetch mem a = some 0 ∧ Within (Window a 8) s.mem mem := by
  refine ⟨filled 0x00#8 sizeofSigset a s.mem,?_,?_,?_,?_⟩
  · simp only [sigemptyset,if_neg given,bzero]
    rw [(fill_eq 0x00#8 sizeofSigset (by decide) a s.mem).1 mapped]
    rfl
  · refine fetch_eq _ _ _ fun i small => ?_
    rw [filled,offset_add _ _ (by omega),if_pos (show i < sizeofSigset from small)]
    interval_cases i <;> rfl
  · intro x
    rw [filled]
    split
    next inside =>
      have present := mapped (offset a x) inside
      rw [add_offset] at present
      rw [present]
      rfl
    next => rfl
  · intro x far
    rw [filled,if_neg]
    intro inside
    exact (not_not.mp far) (offset a x) inside (add_offset a x).symm

theorem changeMember_word (change : Word → Word → Word) {a : Word} {signum : Int} {s : Space} (mapped : Mapped s.mem a)
    (admissible : Admissible signum) : ∃ word mem, fetch s.mem a = some word ∧
      changeMember change a signum s = some (0,⟨mem,0⟩) ∧ store s.mem a (change word (sigmask signum)) = some mem := by
  obtain ⟨word,read,changed⟩ := changeMember_valid change mapped admissible
  exact ⟨word,_,read,changed,store_mapped _ _ _ mapped⟩

theorem call_within {a : Word} {s : Space} (given : a ≠ 0) (mapped : Mapped s.mem a) {call : Call}
    (plain : ∀ ptr, call ≠ .sigfillset ptr) (valid : call.Valid) {mem : Memory}
    (done : call.perform a s = some (0,⟨mem,0⟩)) : Within (Window a 8) s.mem mem := by
  cases call with
  | sigemptyset =>
    obtain ⟨mem',emptied,_,within⟩ := sigemptyset_word given mapped
    obtain rfl : mem' = mem := by
      rw [Call.perform,emptied] at done
      simpa using done
    exact within
  | sigfillset ptr => exact absurd rfl (plain ptr)
  | sigaddset signum =>
    obtain ⟨word,mem',_,changed,stored⟩ := changeMember_word (fun word mask => word ||| mask) mapped valid
    obtain rfl : mem' = mem := by
      rw [Call.perform,sigaddset,changed] at done
      simpa using done
    exact store_within stored
  | sigdelset signum =>
    obtain ⟨word,mem',_,changed,stored⟩ := changeMember_word (fun word mask => word &&& ~~~mask) mapped valid
    obtain rfl : mem' = mem := by
      rw [Call.perform,sigdelset,changed] at done
      simpa using done
    exact store_within stored

theorem flagsOf_withFlags (word : Word) (flags : BitVec 32) : flagsOf (withFlags word flags) = flags := by
  apply BitVec.eq_of_getLsbD_eq
  intro i small
  rw [flagsOf,withFlags,BitVec.getLsbD_setWidth,BitVec.getLsbD_append]
  simp [small]

theorem flagsOf_and (a b : Word) : flagsOf (a &&& b) = flagsOf a &&& flagsOf b := BitVec.setWidth_and

/-! What signal hands to the kernel. -/

/-- The action that signal builds in its frame, and how it goes on. -/
theorem signal_prepares (frame : Frame) (fits : frame.Fits L) (present : ∀ x, (p.space.mem x).isSome ↔ L.mapped x)
    {signum : Int} (admissible : Admissible signum) (handler : Word) :
    ∃ mem flags, actionAt mem frame.act = some ⟨handler,flags,K.myrt,sigmask signum⟩ ∧
      flagsOf flags = SA_RESTART ||| SA_RESTORER ∧ Within (Window frame.act 32) p.space.mem mem ∧
      p.signal K frame signum handler =
        (let r := wrapped (K.sys_rt_sigaction p.kern mem signum frame.act frame.oact 8)
         if r.1 < 0 then some (SIG_ERR,r.2) else (fetch r.2.space.mem (wordAt frame.oact 0)).map fun oact => (oact,r.2)) := by
  have valid : ¬ (signum ≤ 0 ∨ NSIG ≤ signum) := by rwa [← not_admissible_iff,not_not]
  obtain ⟨m₁,stored₁,word₁,within₁⟩ := wordAt_store present fits.act (by omega : 8*0+8 ≤ 32) handler
  have present₁ := within₁.mapped present
  have mapped₁ := wordAt_mapped present₁ fits.act (by omega : 8*3+8 ≤ 32)
  obtain ⟨m₂,emptied,word₂,within₂⟩ := sigemptyset_word (s := {p.space with mem := m₁}) fits.given.2.1 mapped₁
  have present₂ := within₂.mapped present₁
  have mapped₂ := wordAt_mapped present₂ fits.act (by omega : 8*3+8 ≤ 32)
  obtain ⟨empty,m₃,read,added,stored₃⟩ :=
    changeMember_word (fun word mask => word ||| mask) (s := ⟨m₂,0⟩) mapped₂ admissible
  obtain rfl : 0 = empty := Option.some.inj (word₂.symm.trans read)
  have none : (0 : Word) ||| sigmask signum = sigmask signum := BitVec.zero_or
  rw [none] at stored₃
  have word₃ := store_fetch stored₃
  have within₃ := store_within stored₃
  have present₃ := within₃.mapped present₂
  obtain ⟨flags,flagged,_⟩ := fetch_mapped m₃ _ (wordAt_mapped present₃ fits.act (by omega : 8*1+8 ≤ 32))
  obtain ⟨m₄,stored₄,word₄,within₄⟩ :=
    wordAt_store present₃ fits.act (by omega : 8*1+8 ≤ 32) (withFlags flags SA_RESTART)
  have present₄ := within₄.mapped present₃
  obtain ⟨m₅,stored₅,word₅,within₅⟩ := wordAt_store present₄ fits.act (by omega : 8*1+8 ≤ 32)
    (withFlags (withFlags flags SA_RESTART) (flagsOf (withFlags flags SA_RESTART) ||| SA_RESTORER))
  have present₅ := within₅.mapped present₄
  obtain ⟨m₆,stored₆,word₆,within₆⟩ := wordAt_store present₅ fits.act (by omega : 8*2+8 ≤ 32) K.myrt
  have other {m m' : Memory} {i j : Nat} (within : Within (Window (wordAt frame.act i) 8) m m') (apart : j ≠ i)
      (small : i < 4) (small' : j < 4) : fetch m' (wordAt frame.act j) = fetch m (wordAt frame.act j) :=
    wordAt_other within apart (by omega) (by omega)
  have handled : fetch m₆ (wordAt frame.act 0) = some handler := by
    rw [other within₆ (by decide) (by decide) (by decide),other within₅ (by decide) (by decide) (by decide),
      other within₄ (by decide) (by decide) (by decide),other within₃ (by decide) (by decide) (by decide),
      other within₂ (by decide) (by decide) (by decide),word₁]
  have masks : fetch m₆ (wordAt frame.act 3) = some (sigmask signum) := by
    rw [other within₆ (by decide) (by decide) (by decide),other within₅ (by decide) (by decide) (by decide),
      other within₄ (by decide) (by decide) (by decide),word₃]
  have flagging := other within₆ (by decide : 1 ≠ 2) (by decide) (by decide)
  rw [word₅] at flagging
  have inside {m m' : Memory} {i : Nat} (small : i < 4) (within : Within (Window (wordAt frame.act i) 8) m m') :
      Within (Window frame.act 32) m m' := wordAt_within within (by omega)
  refine ⟨m₆,withFlags (withFlags flags SA_RESTART) (flagsOf (withFlags flags SA_RESTART) ||| SA_RESTORER),?_,?_,?_,?_⟩
  · rw [actionAt,handled,flagging,word₆,masks]
    rfl
  · rw [flagsOf_withFlags,flagsOf_withFlags]
  · exact (inside (by decide) within₁).trans ((inside (by decide) within₂).trans ((inside (by decide) within₃).trans
      ((inside (by decide) within₄).trans ((inside (by decide) within₅).trans (inside (by decide) within₆)))))
  · simp only [Process.signal,if_neg valid,stored₁,emptied,sigaddset,added,flagged,stored₄,Process.sigaction,word₄,stored₅,
      stored₆,sizeofSigset,Option.bind_eq_bind,Option.bind_some]
    rw [Option.map_eq_bind]
    rfl

/-! Bits of the mask. -/

theorem unblockable_bit {n : Int} (admissible : Admissible n) :
    unblockable.getLsbD (bitOf n) = true ↔ n = SIGKILL ∨ n = SIGSTOP := by
  have kill : Admissible SIGKILL := by decide
  have stop : Admissible SIGSTOP := by decide
  rw [unblockable,BitVec.getLsbD_or,sigmask_bit kill,sigmask_bit stop,Bool.or_eq_true,decide_eq_true_eq,decide_eq_true_eq,
    bit_injective admissible kill,bit_injective admissible stop]

theorem masked_bit {how : BitVec 32} {word mask : Word} {A B : Set Int} {n : Int} (admissible : Admissible n)
    (told : word.getLsbD (bitOf n) = true ↔ n ∈ A) (before : mask.getLsbD (bitOf n) = true ↔ n ∈ B) :
    (masked how word mask).getLsbD (bitOf n) = true ↔ n ∈ maskOf how A B := by
  have small := admissible_bit admissible
  have cleared : (word &&& ~~~unblockable).getLsbD (bitOf n) = true ↔ n ∈ A \ {SIGKILL,SIGSTOP} := by
    rw [BitVec.getLsbD_and,BitVec.getLsbD_not,Bool.and_eq_true,told,Set.mem_sdiff,Set.mem_insert_iff,Set.mem_singleton_iff,
      ← unblockable_bit admissible]
    simp [small]
  rw [masked,maskOf]
  generalize word &&& ~~~unblockable = set at cleared ⊢
  split_ifs with block unblock
  · rw [BitVec.getLsbD_or,Bool.or_eq_true,cleared,before]
    exact Iff.rfl
  · rw [BitVec.getLsbD_and,BitVec.getLsbD_not,Bool.and_eq_true,before,Set.mem_sdiff (s := B),← cleared]
    simp [small]
  · exact cleared

theorem sigmask_unblockable {n : Int} (settable : Settable n) : sigmask n &&& ~~~unblockable = sigmask n := by
  obtain ⟨admissible,kill,stop⟩ := settable
  apply BitVec.eq_of_getLsbD_eq
  intro i small
  rw [BitVec.getLsbD_and,sigmask_bit admissible]
  by_cases own : i = bitOf n
  · subst own
    have clear : unblockable.getLsbD (bitOf n) = false := by
      rw [Bool.eq_false_iff,Ne,unblockable_bit admissible]
      exact not_or.mpr ⟨kill,stop⟩
    rw [BitVec.getLsbD_not,clear]
    simp [small]
  · simp [own]

/-! Each call does what it means. -/

theorem related_memory (related : Related K action blocked L p M) {mem : Memory} (errno : Int) {sets : ι → Option (Set Int)}
    (present : ∀ x, (mem x).isSome ↔ L.mapped x) (holds : ∀ v A, sets v = some A → Represents (L.addr v) mem A) :
    Related K action blocked L ⟨⟨mem,errno⟩,p.kern⟩ {M with sets := sets} :=
  ⟨present,holds,related.mask,related.handlers,related.own⟩

theorem layout_mapped (present : ∀ x, (p.space.mem x).isSome ↔ L.mapped x) (v : ι) : Mapped p.space.mem (L.addr v) :=
  fun i small => (present _).mpr (L.words v i small)

theorem pointer_mapped (related : Related K action blocked L p M) (oldset : Option ι) :
    L.pointer oldset ≠ 0 → Mapped p.space.mem (L.pointer oldset) := by
  intro given
  cases oldset with
  | none => exact absurd rfl given
  | some u => exact layout_mapped related.present u

theorem sigismember_refines (related : Related K action blocked L p M) (v : ι) {signum result errno : Int}
    (answers : ∃ s, Libmini.sigismember (L.addr v) signum p.space = some (result,s) ∧ s.mem = p.space.mem ∧ s.errno = errno) :
    ∃ q, (SignalCall.sigismember v signum).perform K L p = some (result,q) ∧ q.space.errno = errno ∧
      Related K action blocked L q M := by
  obtain ⟨s,done,same,rfl⟩ := answers
  refine ⟨⟨s,p.kern⟩,by rw [SignalCall.perform,done]; rfl,rfl,?_,?_,related.mask,related.handlers,related.own⟩
  · rw [same]
    exact related.present
  · rw [same]
    exact related.sets

theorem change_refused (related : Related K action blocked L p M) (v : ι) {call : Call} (invalid : ¬ call.Valid) :
    ∃ q, (SignalCall.change v call).perform K L p = some (-1,q) ∧ q.space.errno = EINVAL ∧
      Related K action blocked L q M := by
  refine ⟨{p with space.errno := EINVAL},?_,rfl,related.present,related.sets,related.mask,related.handlers,related.own⟩
  have refused := (call_invalid (L.addr v) p.space call invalid).1
  rw [SignalCall.perform,refused]
  rfl

section Steps
variable [DecidableEq ι] {keeps : Word} (follows : K.Follows action blocked keeps)

/-- A change of the word of one set. -/
theorem sets_updated (related : Related K action blocked L p M) {v : ι} {mem : Memory}
    (within : Within (Window (L.addr v) 8) p.space.mem mem) {members : Option (Set Int)}
    (holds : ∀ A, members = some A → Represents (L.addr v) mem A) :
    ∀ u A, Function.update M.sets v members u = some A → Represents (L.addr u) mem A := by
  intro u A known
  by_cases same : u = v
  · subst same
    rw [Function.update_self] at known
    exact holds A known
  · rw [Function.update_of_ne same] at known
    exact represents_within within (fun i small => window_apart (L.apart u v same) small) (related.sets u A known)

theorem change_refines (related : Related K action blocked L p M) (v : ι) {call : Call}
    (plain : ∀ ptr, call ≠ .sigfillset ptr) (valid : call.Valid) :
    ∃ q, (SignalCall.change v call).perform K L p = some (0,q) ∧ q.space.errno = 0 ∧
      Related K action blocked L q {M with sets := Function.update M.sets v (call.build (M.sets v))} := by
  have mapped := layout_mapped related.present v
  obtain ⟨mem,done,_,step⟩ := call_builds (L.given v) mapped call valid fun ptr same => absurd same (plain ptr)
  have within := call_within (L.given v) mapped plain valid done
  refine ⟨⟨⟨mem,0⟩,p.kern⟩,by rw [SignalCall.perform,done]; rfl,rfl,?_⟩
  refine related_memory related 0 (within.mapped related.present) (sets_updated related within ?_)
  exact fun A builds => step (M.sets v) A (related.sets v) builds

/-- rt_sigprocmask has stored the old mask where it was asked to, and set the new one. -/
theorem saved_related (related : Related K action blocked L p M) (oldset : Option ι) {mem : Memory} {k : κ} {mask : Set Int}
    (same : action k = action p.kern) (masks : ∀ n, Admissible n → ((blocked k).getLsbD (bitOf n) = true ↔ n ∈ mask))
    (stored : if L.pointer oldset = 0 then mem = p.space.mem else store p.space.mem (L.pointer oldset) (blocked p.kern) = some mem) :
    Related K action blocked L ⟨⟨mem,0⟩,k⟩ {M.saved oldset with mask := mask} := by
  have handlers (n : Int) : (action k n).handler = M.handlers n := by rw [same,related.handlers]
  have own : ∀ n ∈ M.own, Installed K n (action k n) := by
    rw [same]
    exact related.own
  cases oldset with
  | none =>
    rw [if_pos (show L.pointer none = 0 from rfl)] at stored
    subst stored
    exact ⟨related.present,related.sets,masks,handlers,own⟩
  | some u =>
    rw [if_neg (show L.pointer (some u) ≠ 0 from L.given u)] at stored
    change store p.space.mem (L.addr u) (blocked p.kern) = some mem at stored
    have within := store_within stored
    refine ⟨within.mapped related.present,sets_updated related within ?_,masks,handlers,own⟩
    rintro A ⟨⟩ signum admissible
    rw [bitAt_fetch (store_fetch stored) (admissible_bit admissible)]
    exact related.mask signum admissible

include follows in
theorem sigprocmask_masks (related : Related K action blocked L p M) {how : BitVec 32} (known : KnownHow how) {v : ι}
    {A : Set Int} (told : M.sets v = some A) (oldset : Option ι) :
    ∃ q, (SignalCall.sigprocmask how (some v) oldset).perform K L p = some (0,q) ∧ q.space.errno = 0 ∧
      Related K action blocked L q {M.saved oldset with mask := maskOf how A M.mask} := by
  obtain ⟨word,read,_⟩ := fetch_mapped p.space.mem _ (layout_mapped related.present v)
  obtain ⟨mem,k,answer,mask,same,stored⟩ :=
    follows.masks p.kern p.space.mem how (L.addr v) (L.pointer oldset) word known (L.given v) read (pointer_mapped related oldset)
  refine ⟨⟨⟨mem,0⟩,k⟩,?_,rfl,saved_related related oldset same (fun n admissible => ?_) stored⟩
  · simp only [SignalCall.perform,Process.sigprocmask,Layout.pointer,sizeofSigset] at answer ⊢
    rw [answer]
    rfl
  · rw [mask]
    have inside := related.sets v A told n admissible
    rw [bitAt_fetch read (admissible_bit admissible)] at inside
    exact masked_bit admissible inside (related.mask n admissible)

include follows in
theorem sigprocmask_tells (related : Related K action blocked L p M) (how : BitVec 32) (oldset : Option ι) :
    ∃ q, (SignalCall.sigprocmask how none oldset).perform K L p = some (0,q) ∧ q.space.errno = 0 ∧
      Related K action blocked L q (M.saved oldset) := by
  obtain ⟨mem,k,answer,mask,same,stored⟩ :=
    follows.tells p.kern p.space.mem how (L.pointer oldset) (pointer_mapped related oldset)
  have masks (n : Int) (admissible : Admissible n) : (blocked k).getLsbD (bitOf n) = true ↔ n ∈ M.mask := by
    rw [mask]
    exact related.mask n admissible
  have kept : {M.saved oldset with mask := M.mask} = M.saved oldset := by cases oldset <;> rfl
  refine ⟨⟨⟨mem,0⟩,k⟩,?_,rfl,kept ▸ saved_related related oldset same masks stored⟩
  simp only [SignalCall.perform,Process.sigprocmask,Layout.pointer,sizeofSigset] at answer ⊢
  rw [answer]
  rfl

include follows in
omit [DecidableEq ι] in
theorem sigprocmask_confused (related : Related K action blocked L p M) {how : BitVec 32} (unknown : ¬ KnownHow how) (v : ι)
    (oldset : Option ι) : ∃ q, (SignalCall.sigprocmask how (some v) oldset).perform K L p = some (-1,q) ∧
      q.space.errno = EINVAL ∧ Related K action blocked L q M := by
  obtain ⟨word,read,_⟩ := fetch_mapped p.space.mem _ (layout_mapped related.present v)
  have answer := follows.unknown p.kern p.space.mem how (L.addr v) (L.pointer oldset) word unknown (L.given v) read
  refine ⟨⟨⟨p.space.mem,EINVAL⟩,p.kern⟩,?_,rfl,related.present,related.sets,related.mask,related.handlers,related.own⟩
  simp only [SignalCall.perform,Process.sigprocmask,Layout.pointer,sizeofSigset] at answer ⊢
  rw [answer]
  rfl

end Steps

/-! signal. -/

theorem actionAt_handler {m : Memory} {a : Word} {old : Action} (read : actionAt m a = some old) :
    fetch m (wordAt a 0) = some old.handler := by
  simp only [actionAt,Option.bind_eq_bind,Option.bind_eq_some_iff,Option.some.injEq] at read
  obtain ⟨handler,word,_,_,_,_,_,_,rfl⟩ := read
  exact word

/-- What the kernel keeps of the action that signal builds. -/
theorem kept_installed {keeps flags : Word} {signum : Int} (settable : Settable signum) (handler : Word)
    (knows : flagsOf keeps &&& (SA_RESTART ||| SA_RESTORER) = SA_RESTART ||| SA_RESTORER)
    (flagged : flagsOf flags = SA_RESTART ||| SA_RESTORER) :
    Installed K signum (Action.kept keeps ⟨handler,flags,K.myrt,sigmask signum⟩) := by
  refine ⟨?_,rfl,sigmask_unblockable settable⟩
  rw [Action.kept,flagsOf_and,flagged,BitVec.and_comm,knows]

/-- A change of the locals of signal leaves the sets as they are. -/
theorem sets_kept (related : Related K action blocked L p M) {frame : Frame} (fits : frame.Fits L) {mem mem' : Memory}
    (first : Within (Window frame.act 32) p.space.mem mem) (second : Within (Window frame.oact 32) mem mem') (v : ι) (A : Set Int)
    (known : M.sets v = some A) : Represents (L.addr v) mem' A := by
  obtain ⟨act,oact⟩ := fits.sets v
  have before := represents_within first (fun i small => window_apart act small) (related.sets v A known)
  exact represents_within second (fun i small => window_apart oact small) before

section Signal
variable {keeps : Word}

theorem signal_handled (follows : K.Follows action blocked keeps) (related : Related K action blocked L p M) {frame : Frame}
    (fits : frame.Fits L) {signum : Int} (settable : Settable signum) (handler : Word) :
    ∃ q, (SignalCall.signal frame signum handler).perform K L p = some (((M.handlers signum).toNat : Int),q) ∧ q.space.errno = 0 ∧
      Related K action blocked L q
        {M with handlers := Function.update M.handlers signum handler,own := insert signum M.own} := by
  obtain ⟨mem,flags,built,flagged,within,same⟩ :=
    signal_prepares (K := K) frame fits related.present settable.1 handler
  have present := within.mapped related.present
  obtain ⟨mem',k,answer,actions,mask,stored,some,far⟩ :=
    follows.installs p.kern mem signum frame.act frame.oact _ settable.1 settable.2.1 settable.2.2 fits.given.1 fits.given.2.2
      built fun i small => (present _).mpr (fits.oact i small)
  have within' : Within (Window frame.oact 32) mem mem' := ⟨some,fun x out => far x (not_not.mp out)⟩
  have old := actionAt_handler stored
  rw [related.handlers] at old
  refine ⟨⟨⟨mem',0⟩,k⟩,?_,rfl,within'.mapped present,sets_kept related fits within within',?_,?_,?_⟩
  · have zero : wrapped ((0 : Int),mem',k) = (0,⟨⟨mem',0⟩,k⟩) := rfl
    rw [SignalCall.perform,same,answer,zero]
    simp [old]
  · rw [mask]
    exact related.mask
  · intro n
    change (action k n).handler = Function.update M.handlers signum handler n
    by_cases own : n = signum
    · subst own
      rw [actions,Function.update_self,Function.update_self]
      rfl
    · rw [actions,Function.update_of_ne own,Function.update_of_ne own,related.handlers]
  · intro n member
    by_cases own : n = signum
    · subst own
      rw [actions,Function.update_self]
      exact kept_installed settable handler follows.flags flagged
    · rw [actions,Function.update_of_ne own]
      exact related.own n (Set.mem_of_mem_insert_of_ne member own)

theorem signal_unhandled (follows : K.Follows action blocked keeps) (related : Related K action blocked L p M) {frame : Frame}
    (fits : frame.Fits L) {signum : Int} (fixed : ¬ Settable signum) (handler : Word) :
    ∃ q, (SignalCall.signal frame signum handler).perform K L p = some ((SIG_ERR.toNat : Int),q) ∧ q.space.errno = EINVAL ∧
      Related K action blocked L q M := by
  by_cases admissible : Admissible signum
  · have unblockable : signum = SIGKILL ∨ signum = SIGSTOP := by
      rw [Settable,not_and,not_and_or,not_not,not_not] at fixed
      exact fixed admissible
    obtain ⟨mem,flags,built,_,within,same⟩ :=
      signal_prepares (K := K) frame fits related.present admissible handler
    have answer := follows.refuses p.kern mem signum frame.act frame.oact _ unblockable fits.given.1 built
    have failed : wrapped (-EINVAL,mem,p.kern) = (-1,⟨⟨mem,EINVAL⟩,p.kern⟩) := rfl
    refine ⟨⟨⟨mem,EINVAL⟩,p.kern⟩,?_,rfl,within.mapped related.present,?_,related.mask,related.handlers,related.own⟩
    · rw [SignalCall.perform,same,answer,failed]
      rfl
    · intro v A known
      exact represents_within within (fun i small => window_apart (fits.sets v).1 small) (related.sets v A known)
  · have barred := not_admissible_iff.mp admissible
    refine ⟨{p with space.errno := EINVAL},?_,rfl,related.present,related.sets,related.mask,related.handlers,related.own⟩
    rw [SignalCall.perform,Process.signal,if_pos barred]
    rfl

end Signal

/-! Runs. -/

section Runs
variable [DecidableEq ι] {keeps : Word} (follows : K.Follows action blocked keeps)
include follows

theorem call_refines (related : Related K action blocked L p M) {call : SignalCall ι} {result errno : Int} {N : Signals ι}
    (means : Means call M result errno N) (fits : call.Fits L) :
    ∃ q, call.perform K L p = some (result,q) ∧ q.space.errno = errno ∧ Related K action blocked L q N := by
  cases means with
  | changed v call _ plain valid => exact change_refines related v plain valid
  | unchanged v call _ invalid => exact change_refused related v invalid
  | member v signum A _ known admissible inside =>
    have tells := (tells_iff (layout_mapped related.present v) A).mpr (related.sets v A known)
    exact sigismember_refines related v ⟨_,tells.member signum admissible inside,rfl,rfl⟩
  | other v signum A _ known admissible outside =>
    have tells := (tells_iff (layout_mapped related.present v) A).mpr (related.sets v A known)
    exact sigismember_refines related v ⟨_,tells.other signum admissible outside,rfl,rfl⟩
  | barred v signum _ invalid =>
    exact sigismember_refines related v ⟨_,if_pos (not_admissible_iff.mp invalid),rfl,rfl⟩
  | masked how v oldset A _ known told => exact sigprocmask_masks follows related known told oldset
  | asked how oldset _ => exact sigprocmask_tells follows related how oldset
  | confused how v oldset _ unknown => exact sigprocmask_confused follows related unknown v oldset
  | handled frame signum handler _ settable => exact signal_handled follows related fits settable handler
  | unhandled frame signum handler _ fixed => exact signal_unhandled follows related fits fixed handler

/-- What a sequence of calls on sets, the mask and the handlers means is what the calls do. -/
theorem calls_refine {calls : List (SignalCall ι)} {answers : List (Int × Int)} {N : Signals ι}
    (related : Related K action blocked L p M) (means : MeansAll calls M answers N)
    (fits : ∀ call ∈ calls, call.Fits L) :
    ∃ q, SignalCall.performAll K L calls p = some (answers,q) ∧ Related K action blocked L q N := by
  induction means generalizing p with
  | nil => exact ⟨p,rfl,related⟩
  | cons first _ later =>
    obtain ⟨fit,others⟩ := List.forall_mem_cons.mp fits
    obtain ⟨q,done,rfl,next⟩ := call_refines follows related first fit
    obtain ⟨r,rest,last⟩ := later next others
    refine ⟨r,?_,last⟩
    rw [SignalCall.performAll,done]
    simp [rest]

end Runs

end Refinement

/-! A kernel with a table of actions and a mask. -/

def EFAULT : Int := 14

instance (how : BitVec 32) : Decidable (KnownHow how) := inferInstanceAs (Decidable (_ ∨ _))

def putAction (m : Memory) (a : Word) (x : Action) : Option Memory := do
  let m ← store m (wordAt a 0) x.handler
  let m ← store m (wordAt a 1) x.flags
  let m ← store m (wordAt a 2) x.restorer
  store m (wordAt a 3) x.mask

theorem putAction_reads {m : Memory} {a : Word} (x : Action) (mapped : ∀ i < 32, (m (a+BitVec.ofNat 64 i)).isSome) :
    ∃ m', putAction m a x = some m' ∧ actionAt m' a = some x ∧ Within (Window a 32) m m' := by
  have holds : Holds (fun x => (m x).isSome = true) a 32 := mapped
  have present (y : Word) : (m y).isSome ↔ (fun x => (m x).isSome = true) y := Iff.rfl
  obtain ⟨m₁,stored₁,word₁,within₁⟩ := wordAt_store present holds (by omega : 8*0+8 ≤ 32) x.handler
  have present₁ := within₁.mapped present
  obtain ⟨m₂,stored₂,word₂,within₂⟩ := wordAt_store present₁ holds (by omega : 8*1+8 ≤ 32) x.flags
  have present₂ := within₂.mapped present₁
  obtain ⟨m₃,stored₃,word₃,within₃⟩ := wordAt_store present₂ holds (by omega : 8*2+8 ≤ 32) x.restorer
  have present₃ := within₃.mapped present₂
  obtain ⟨m₄,stored₄,word₄,within₄⟩ := wordAt_store present₃ holds (by omega : 8*3+8 ≤ 32) x.mask
  have other {m m' : Memory} {i j : Nat} (within : Within (Window (wordAt a i) 8) m m') (apart : j ≠ i)
      (small : i < 4) (small' : j < 4) : fetch m' (wordAt a j) = fetch m (wordAt a j) :=
    wordAt_other within apart (by omega) (by omega)
  rw [← other within₂ (by decide) (by decide) (by decide),← other within₃ (by decide) (by decide) (by decide),
    ← other within₄ (by decide) (by decide) (by decide)] at word₁
  rw [← other within₃ (by decide) (by decide) (by decide),← other within₄ (by decide) (by decide) (by decide)] at word₂
  rw [← other within₄ (by decide) (by decide) (by decide)] at word₃
  have inside {m m' : Memory} {i : Nat} (small : i < 4) (within : Within (Window (wordAt a i) 8) m m') :
      Within (Window a 32) m m' := wordAt_within within (by omega)
  refine ⟨m₄,?_,?_,?_⟩
  · simp only [putAction,stored₁,stored₂,stored₃,Option.bind_eq_bind,Option.bind_some]
    exact stored₄
  · rw [actionAt,word₁,word₂,word₃,word₄]
    rfl
  · exact (inside (by decide) within₁).trans ((inside (by decide) within₂).trans ((inside (by decide) within₃).trans
      (inside (by decide) within₄)))

def tableKernel (keeps myrt : Word) : SignalKernel ((Int → Action) × Word) where
  myrt := myrt
  sys_rt_sigaction k m sig act oact _ :=
    match actionAt m act with
    | none => (-EFAULT,m,k)
    | some new =>
      if sig = SIGKILL ∨ sig = SIGSTOP then (-EINVAL,m,k)
      else match putAction m oact (k.1 sig) with
        | none => (-EFAULT,m,k)
        | some m' => (0,m',(Function.update k.1 sig (new.kept keeps),k.2))
  sys_rt_sigprocmask k m how set oset _ :=
    match if set = 0 then some k.2 else (fetch m set).map fun word => masked how word k.2 with
    | none => (-EFAULT,m,k)
    | some blocked =>
      if set ≠ 0 ∧ ¬ KnownHow how then (-EINVAL,m,k)
      else if oset = 0 then (0,m,(k.1,blocked))
      else match store m oset k.2 with
        | none => (-EFAULT,m,k)
        | some m' => (0,m',(k.1,blocked))

theorem tableKernel_follows (keeps myrt : Word)
    (flags : flagsOf keeps &&& (SA_RESTART ||| SA_RESTORER) = SA_RESTART ||| SA_RESTORER) :
    (tableKernel keeps myrt).Follows Prod.fst Prod.snd keeps where
  flags := flags
  installs := by
    intro k m sig act oact new _ kill stop _ _ read mapped
    obtain ⟨m',put,reads,within⟩ := putAction_reads (k.1 sig) mapped
    refine ⟨m',(Function.update k.1 sig (new.kept keeps),k.2),?_,rfl,rfl,reads,within.present,?_⟩
    · simp only [tableKernel,read,put,if_neg (not_or.mpr ⟨kill,stop⟩)]
    · exact fun x far => within.same x (not_not.mpr far)
  refuses := by
    intro k m sig act oact new barred _ read
    simp only [tableKernel,read,if_pos barred]
  masks := by
    intro k m how set oset word known given read mapped
    have clear : ¬ (set ≠ 0 ∧ ¬ KnownHow how) := fun both => both.2 known
    by_cases asked : oset = 0
    · refine ⟨m,(k.1,masked how word k.2),?_,rfl,rfl,by rw [if_pos asked]⟩
      simp only [tableKernel,if_neg given,read,Option.map_some,if_neg clear,if_pos asked]
    · have stored := store_mapped m oset k.2 (mapped asked)
      refine ⟨_,(k.1,masked how word k.2),?_,rfl,rfl,by rw [if_neg asked,stored]⟩
      simp only [tableKernel,if_neg given,read,Option.map_some,if_neg clear,if_neg asked,stored]
  tells := by
    intro k m how oset mapped
    have clear : ¬ ((0 : Word) ≠ 0 ∧ ¬ KnownHow how) := fun both => both.1 rfl
    by_cases asked : oset = 0
    · refine ⟨m,k,?_,rfl,rfl,by rw [if_pos asked]⟩
      simp only [tableKernel,if_true,if_neg clear,if_pos asked]
    · have stored := store_mapped m oset k.2 (mapped asked)
      refine ⟨_,k,?_,rfl,rfl,by rw [if_neg asked,stored]⟩
      simp only [tableKernel,if_true,if_neg clear,if_neg asked,stored]
  unknown := by
    intro k m how set oset word unknown given read
    simp only [tableKernel,if_neg given,read,Option.map_some,if_pos (And.intro given unknown)]

def flatLayout : Layout Unit where
  addr _ := 0x1000
  mapped _ := True
  given _ := by decide
  words _ _ _ := trivial
  apart v u other := absurd rfl other

theorem flat_fits : Frame.Fits flatLayout ⟨0x2000,0x3000⟩ where
  act _ _ := trivial
  oact _ _ := trivial
  given := by decide
  sets _ := ⟨apart_same 0x1000 0 0x1000 8 32 (.inl (by decide)) (by decide) (by decide),
    apart_same 0x1000 0 0x2000 8 32 (.inl (by decide)) (by decide) (by decide)⟩

def interruptCalls : List (SignalCall Unit) :=
  [.change () .sigemptyset,.change () (.sigaddset 2),.sigprocmask SIG_BLOCK (some ()) none,.signal ⟨0x2000,0x3000⟩ 2 0x400000]

theorem interrupt_means : ∃ N, MeansAll interruptCalls ⟨fun _ => none,∅,fun _ => 0,∅⟩ [(0,0),(0,0),(0,0),(0,0)] N ∧
    N.handlers 2 = 0x400000 ∧ 2 ∈ N.mask := by
  refine ⟨_,.cons (.changed () .sigemptyset _ (fun _ => nofun) trivial)
    (.cons (.changed () (.sigaddset 2) _ (fun _ => nofun) (show Admissible 2 by decide))
      (.cons (.masked SIG_BLOCK () none {2} _ (.inl rfl) ?_)
        (.cons (.handled ⟨0x2000,0x3000⟩ 2 0x400000 _ ⟨by decide,by decide,by decide⟩) (.nil _)))),?_,?_⟩
  · simp [Call.build,show Admissible 2 by decide]
  · simp
  · simp [maskOf,SIGKILL,SIGSTOP]

/-- An interrupt is blocked, and its handler set. -/
theorem calls_refine_interrupt : ∃ q, SignalCall.performAll (tableKernel 0xdfffffff 0x400100) flatLayout interruptCalls
    ⟨⟨fun _ => some 0,0⟩,fun _ => ⟨0,0,0,0⟩,0⟩ = some ([(0,0),(0,0),(0,0),(0,0)],q) ∧
      (q.kern.1 2).handler = 0x400000 ∧ q.kern.2.getLsbD 1 = true := by
  have follows := tableKernel_follows 0xdfffffff 0x400100 (by decide)
  have related : Related (tableKernel 0xdfffffff 0x400100) Prod.fst Prod.snd flatLayout
      ⟨⟨fun _ => some 0,0⟩,fun _ => ⟨0,0,0,0⟩,0⟩ ⟨fun _ => none,∅,fun _ => 0,∅⟩ := by
    refine ⟨fun _ => ⟨fun _ => trivial,fun _ => rfl⟩,nofun,?_,fun _ => rfl,nofun⟩
    intro n _
    change (0#64).getLsbD (bitOf n) = true ↔ n ∈ (∅ : Set Int)
    simp
  obtain ⟨N,means,handler,blocked⟩ := interrupt_means
  obtain ⟨q,done,last⟩ := calls_refine follows related means (by
    intro call member
    simp only [interruptCalls,List.mem_cons,List.not_mem_nil,or_false] at member
    rcases member with rfl | rfl | rfl | rfl
    · trivial
    · trivial
    · trivial
    · exact flat_fits)
  exact ⟨q,done,(last.handlers 2).trans handler,(last.mask 2 (by decide)).mpr blocked⟩

end Unixprog.Libmini
