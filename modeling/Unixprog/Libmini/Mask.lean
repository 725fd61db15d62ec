import Unixprog.Libmini.Jump

/-! The signal mask across setjmp and longjmp. Both calls of rt_sigprocmask hand
over an address in the first page: the address that `lea` makes of 0 and of 2. -/
namespace Unixprog.Libmini
open Words X86 Reg
variable {κ : Type} {P : Program} {K : Kernel κ}

def WordMapped (mapped : Word → Prop) (a : Word) : Prop := ∀ i < 8, mapped (a+BitVec.ofNat 64 i)

/-- rt_sigprocmask with a pointer to an unmapped word: the mask stays, and no memory is
written. A null oset is not written either. -/
structure Sigprocmask (K : Kernel κ) (mask : κ → Word) (mapped : κ → Word → Prop) : Prop where
  badSet : ∀ regs m k, regs rax = 14#64 → regs rsi ≠ 0#64 → ¬ WordMapped (mapped k) (regs rsi) →
    mask (K regs m k).kern = mask k
  badOset : ∀ regs m k, regs rax = 14#64 → regs rdx ≠ 0#64 → ¬ WordMapped (mapped k) (regs rdx) →
    (K regs m k).mem = m
  null : ∀ regs m k, regs rax = 14#64 → regs rdx = 0#64 → (K regs m k).mem = m

def FirstPageFree (mapped : κ → Word → Prop) : Prop := ∀ k a, a.toNat < 4096 → ¬ mapped k a

section Kernel
variable {mask : κ → Word} {mapped : κ → Word → Prop}

theorem low_unmapped (free : FirstPageFree mapped) (k : κ) (a : Word) (low : a.toNat < 4096) :
    ¬ WordMapped (mapped k) a := fun all => free k a low (by simpa using all 0 (by omega))

theorem sigprocmask_silent (follows : Sigprocmask K mask mapped) (free : FirstPageFree mapped) : Silent K := by
  intro regs m k call low
  by_cases null : regs rdx = 0#64
  · exact follows.null regs m k call null
  · exact follows.badOset regs m k call null (low_unmapped free k _ low)

theorem longjmp_call (follows : Sigprocmask K mask mapped) (free : FirstPageFree mapped) {size : Word}
    {before after : κ} (call : MaskCall K 2#64 66#64 0#64 size before after) : mask after = mask before := by
  obtain ⟨regs,m,number,_,set,_,_,rfl⟩ := call
  refine follows.badSet regs m before number ?_ ?_
  · rw [set]
    decide
  · rw [set]
    exact low_unmapped free before _ (by decide)

end Kernel

structure JumpsBack (L : Linked P) (s t u : State κ) : Prop where
  rip : u.rip = L.longjmp
  env : u.reg rdi = s.reg .rdi
  bytes : ∀ i < 72, u.mem (s.reg .rdi+BitVec.ofNat 64 i) = t.mem (s.reg .rdi+BitVec.ofNat 64 i)

theorem JumpsBack.jumpsTo {L : Linked P} {s t u : State κ} (jumps : JumpsBack L s t u) : JumpsTo L s t u := by
  refine ⟨jumps.rip,jumps.env,?_⟩
  intro i bound
  refine load_congr fun j small => ?_
  rw [add_ofNat]
  exact jumps.bytes _ (by omega)

theorem mask_word (L : Linked P) (s t u v : State κ) (after : Word)
    (apart : Apart (s.reg rdi) 72 (s.reg rsp-56#64) 56)
    (returns : SetjmpReturns K (entered s L.setjmp after) t (s.reg rsp-56#64)) (jumps : JumpsBack L s t u)
    (jumped : LongjmpReturns K u v (s.reg rsp-48#64)) :
    load v.mem (s.reg rdi+64#64) = load s.mem (s.reg rdi+64#64) := by
  refine load_congr fun i small => ?_
  rw [add_ofNat]
  -- The byte is outside all that the two routines and the call write.
  have below : Outside (s.reg rdi+BitVec.ofNat 64 (64+i)) (s.reg rsp-56#64) 56 := apart (64+i) (by omega)
  have first : v.mem (s.reg rdi+BitVec.ofNat 64 (64+i)) = u.mem (s.reg rdi+BitVec.ofNat 64 (64+i)) := by
    refine jumped.frame _ fun j inside => ?_
    rw [show s.reg rsp-48#64 = s.reg rsp-56#64+8#64 from (sub_add_ofNat _ 56 8 (by omega)).symm,add_ofNat]
    exact below (8+j) (by omega)
  have second : t.mem (s.reg rdi+BitVec.ofNat 64 (64+i)) =
      (entered s L.setjmp after).mem (s.reg rdi+BitVec.ofNat 64 (64+i)) := by
    refine returns.frame _ ?_ fun j inside => below j (by omega)
    intro j inside
    have separate := apart_same (s.reg rdi) 64 0 8 64 (by omega) (by omega) (by omega) i small j inside
    simpa [entered,add_ofNat] using separate
  have third : (entered s L.setjmp after).mem (s.reg rdi+BitVec.ofNat 64 (64+i)) =
      s.mem (s.reg rdi+BitVec.ofNat 64 (64+i)) := by
    have slot := put_part s.mem (s.reg rsp-56#64) after _ 48 56 below (by omega)
    rwa [sub_add_ofNat _ 56 48 (by omega)] at slot
  rw [first,jumps.bytes _ (by omega),second,third]

def MaskRestored (mask : κ → Word) (s v : State κ) : Prop :=
  mask v.kern = mask s.kern ∧ load v.mem (s.reg rdi+64#64) = mask s.kern

/-- The mask is as it was when setjmp was called exactly if longjmp finds it so, and
env.mask holds it exactly if it did so before. -/
theorem mask_restored_iff (L : Linked P) (mask : κ → Word) (mapped : κ → Word → Prop)
    (follows : Sigprocmask K mask mapped) (free : FirstPageFree mapped) (s : State κ) (after : Word)
    (called : P s.rip = some (.call L.setjmp,after)) (apart : Apart (s.reg rdi) 72 (s.reg rsp-56#64) 56) :
    ∃ t, Leads P K s t ∧ Resumes s after 0#64 t ∧ ∀ u, JumpsBack L s t u →
      ∃ v, Leads P K u v ∧ Resumes s after (u.reg rsi) v ∧ (MaskRestored mask s v ↔
        mask u.kern = mask s.kern ∧ load s.mem (s.reg rdi+64#64) = mask s.kern) := by
  have silent := sigprocmask_silent follows free
  obtain ⟨t,led,returns⟩ := called_leads (K := K) L silent s after called (apart.weaken (by omega) le_rfl)
  refine ⟨t,led,returns.resumes,?_⟩
  intro u jumps
  obtain ⟨v,led',resumes,jumped⟩ := jumped_leads L silent s t u after _ returns jumps.jumpsTo
  refine ⟨v,led',resumes,?_⟩
  have kern := longjmp_call follows free jumped.call
  have word := mask_word L s t u v after apart returns jumps jumped
  rw [MaskRestored,kern,word]

def maskKernel (mapped : Word → Bool) : Kernel Word := fun regs m mask =>
  let readable (a : Word) := (List.range 8).all fun i => mapped (a+BitVec.ofNat 64 i)
  let set := load m (regs rsi) &&& ~~~0x40100#64
  if regs rax ≠ 14#64 then ⟨-38,0,0,m,mask⟩
  else if regs r10 ≠ 8#64 then ⟨-22,0,0,m,mask⟩
  else if regs rsi ≠ 0#64 ∧ readable (regs rsi) = false then ⟨-14,0,0,m,mask⟩
  else if regs rsi ≠ 0#64 ∧ 2 < (regs rdi).toNat then ⟨-22,0,0,m,mask⟩
  else
    let next := if regs rsi = 0#64 then mask
      else if regs rdi = 0#64 then mask ||| set
      else if regs rdi = 1#64 then mask &&& ~~~set
      else set
    if regs rdx = 0#64 then ⟨0,0,0,m,next⟩
    else if readable (regs rdx) then ⟨0,0,0,put m (regs rdx) mask,next⟩
    else ⟨-14,0,0,m,next⟩

theorem readable_iff (mapped : Word → Bool) (a : Word) :
    ((List.range 8).all fun i => mapped (a+BitVec.ofNat 64 i)) = false ↔ ¬ WordMapped (mapped · = true) a := by
  rw [← Bool.not_eq_true,List.all_eq_true]
  simp only [List.mem_range,WordMapped]

/-- Only a mapped oset is written. -/
theorem maskKernel_mem {mapped : Word → Bool} {regs : Reg → Word} {m : Bytes} {mask : Word}
    (shut : regs rdx ≠ 0#64 → ¬ WordMapped (mapped · = true) (regs rdx)) :
    (maskKernel mapped regs m mask).mem = m := by
  have untouched {c : Prop} [Decidable c] (x y : Response Word) (early : x.mem = m) (late : ¬ c → y.mem = m) :
      (if c then x else y).mem = m := by
    split
    · exact early
    · exact late ‹_›
  rw [maskKernel]
  iterate 4 refine untouched _ _ rfl fun _ => ?_
  refine untouched _ _ rfl fun given => ?_
  have bad := (readable_iff mapped _).mpr (shut given)
  simp only [bad,Bool.false_eq_true,if_false]

theorem maskKernel_follows (mapped : Word → Bool) :
    Sigprocmask (maskKernel mapped) id fun _ a => mapped a = true := by
  refine ⟨?_,?_,?_⟩
  · intro regs m mask number given bad
    rw [← readable_iff] at bad
    by_cases size : regs r10 = 8#64 <;> simp [maskKernel,number,size,given,bad]
  · intro regs m mask _ _ bad
    exact maskKernel_mem fun _ => bad
  · intro regs m mask _ null
    exact maskKernel_mem fun given => absurd null given

def sampleMapped (a : Word) : Bool := decide (4096 ≤ a.toNat)

theorem sample_free : FirstPageFree fun (_ : Word) a => sampleMapped a = true := by
  intro k a low mapped
  have high := of_decide_eq_true mapped
  omega

/-- SIGHUP is blocked at setjmp and unblocked before longjmp: it stays unblocked. -/
theorem mask_not_restored : ¬ ∃ t, Leads sampleProgram (maskKernel sampleMapped) (sampleState 1#64) t ∧
    Resumes (sampleState 1#64) 0x4001 0#64 t ∧ ∀ u, JumpsBack sampleLinked (sampleState 1#64) t u →
      ∃ v, Leads sampleProgram (maskKernel sampleMapped) u v ∧ Resumes (sampleState 1#64) 0x4001 (u.reg rsi) v ∧
        MaskRestored id (sampleState 1#64) v := by
  rintro ⟨t,led,resumes,restored⟩
  have follows := maskKernel_follows sampleMapped
  have silent := sigprocmask_silent follows sample_free
  have halts {x : State Word} (back : x.rip = 0x4001) : step sampleProgram (maskKernel sampleMapped) x = none := by
    rw [step,back]
    rfl
  obtain ⟨t',led',returns⟩ := called_leads sampleLinked silent (sampleState 1#64) 0x4001 rfl
    (sample_apart 1#64 64 (by omega))
  obtain rfl := led.unique led' (halts resumes.rip) (halts returns.resumes.rip)
  obtain ⟨v,there,at',mask,_⟩ := restored {jumpAtOnce t' with kern := 0#64} ⟨rfl,rfl,fun _ _ => rfl⟩
  obtain ⟨v',there',at'',jumped⟩ := jumped_leads sampleLinked silent (sampleState 1#64) t'
    {jumpAtOnce t' with kern := 0#64} 0x4001 _ returns ⟨rfl,rfl,fun _ _ => rfl⟩
  obtain rfl := there.unique there' (halts at'.rip) (halts at''.rip)
  have kept := longjmp_call follows sample_free jumped.call
  rw [kept] at mask
  exact absurd mask (by change (0#64 : Word) ≠ 1#64; decide)

theorem mask_restored_iff_sample : ∃ t v, Leads sampleProgram (maskKernel sampleMapped) (sampleState 0#64) t ∧
    Leads sampleProgram (maskKernel sampleMapped) {jumpAtOnce t with kern := 0#64} v ∧
    MaskRestored id (sampleState 0#64) v := by
  obtain ⟨t,led,_,jump⟩ := mask_restored_iff sampleLinked id _ (maskKernel_follows sampleMapped) sample_free
    (sampleState 0#64) 0x4001 rfl (sample_apart 0#64 72 (by omega))
  obtain ⟨v,there,_,restored⟩ := jump {jumpAtOnce t with kern := 0#64} ⟨rfl,rfl,fun _ _ => rfl⟩
  exact ⟨t,v,led,there,restored.mpr ⟨rfl,rfl⟩⟩

end Unixprog.Libmini
