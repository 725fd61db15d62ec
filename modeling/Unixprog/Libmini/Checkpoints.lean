import Unixprog.Libmini.Jump

/-! setjmp and longjmp with several bufs: the routines are called on them in any order, and
between the calls anything may happen. -/
namespace Unixprog.Libmini
open Words X86 Reg
variable {ι κ : Type} {P : Program} {K : Kernel κ}

/-- Where a call of setjmp returns to, and the registers that it found. -/
structure Checkpoint where
  after : Word
  reg : Reg → Word

def taken (s : State κ) (after : Word) : Checkpoint := ⟨after,s.reg⟩

structure Checkpoint.Lands (c : Checkpoint) (value : Word) (t : State κ) : Prop where
  rip : t.rip = c.after
  rax : t.reg rax = value
  kept : ∀ r ∈ .rsp::calleeSaved, t.reg r = c.reg r

structure Bufs (ι : Type) where
  addr : ι → Word
  apart : ∀ v u, v ≠ u → Apart (addr v) 64 (addr u) 64

/-- The calls have room below this address, apart from all bufs. -/
def Bufs.Room (B : Bufs ι) (top : Word) : Prop := ∀ v, Apart (B.addr v) 64 (top-56#64) 56

def Bufs.Kept (B : Bufs ι) (v : ι) (m m' : Bytes) : Prop :=
  ∀ i < 64, m' (B.addr v+BitVec.ofNat 64 i) = m (B.addr v+BitVec.ofNat 64 i)

section Moves
variable [DecidableEq ι]

/-- `M` has the last checkpoint of each buf. The next `n` moves are, in any order: whatever
leaves the bufs alone whose checkpoints are to last, setjmp on a buf, and longjmp on one with a
checkpoint. The routines come back every time. -/
def Serves (K : Kernel κ) (L : Linked P) (B : Bufs ι) : Nat → State κ → (ι → Option Checkpoint) → Prop
  | 0,_,_ => True
  | n+1,s,M =>
    (∀ N t, (∀ v c, N v = some c → M v = some c ∧ B.Kept v s.mem t.mem) → Serves K L B n t N) ∧
    (∀ v after, P s.rip = some (.call L.setjmp,after) → s.reg rdi = B.addr v → B.Room (s.reg rsp) →
      ∃ t, Leads P K s t ∧ (taken s after).Lands 0 t ∧
        (∀ x, Outside x (B.addr v) 64 → Outside x (s.reg rsp-56#64) 56 → t.mem x = s.mem x) ∧
        Serves K L B n t (Function.update M v (some (taken s after)))) ∧
    ∀ v c, M v = some c → s.rip = L.longjmp → s.reg rdi = B.addr v →
      ∃ t, Leads P K s t ∧ c.Lands (s.reg rsi) t ∧
        (∀ x, Outside x (c.reg rsp-48#64) 48 → t.mem x = s.mem x) ∧ Serves K L B n t M

end Moves

/-! What the words of a buf hold. -/

/-- rsp was saved within the call, 8 below the caller's. -/
structure Recorded (B : Bufs ι) (m : Bytes) (v : ι) (c : Checkpoint) : Prop where
  regs : ∀ i r, savedRegs[i]? = some r → load m (B.addr v+BitVec.ofNat 64 (8*i)) =
    if r = .rsp then c.reg .rsp-8#64 else c.reg r
  pc : load m (B.addr v+56#64) = c.after
  room : B.Room (c.reg .rsp)

section Records
variable {B : Bufs ι} {m m' : Bytes} {v : ι} {c : Checkpoint}

theorem Recorded.lasts (recorded : Recorded B m v c) (kept : B.Kept v m m') : Recorded B m' v c := by
  have word (i : Nat) (inside : i+8 ≤ 64) : load m' (B.addr v+BitVec.ofNat 64 i) = load m (B.addr v+BitVec.ofNat 64 i) := by
    refine load_congr fun j small => ?_
    rw [add_ofNat]
    exact kept (i+j) (by omega)
  constructor
  case regs =>
    intro i r listed
    have bound : i < 7 := (List.getElem?_eq_some_iff.mp listed).1
    exact (word (8*i) (by omega)).trans (recorded.regs i r listed)
  case pc => exact (word 56 (by omega)).trans recorded.pc
  case room => exact recorded.room

theorem room_above (room : B.Room (c.reg .rsp)) (v : ι) : Apart (B.addr v) 64 (c.reg .rsp-48#64) 48 := by
  have part : Apart (B.addr v+BitVec.ofNat 64 0) 64 (c.reg .rsp-56#64+BitVec.ofNat 64 8) 48 :=
    (room v).parts 0 8 (by omega) (by omega)
  rwa [BitVec.add_zero,sub_add_ofNat _ 56 8 (by omega)] at part

end Records

/-! The routines. -/

section Routines
variable {B : Bufs ι} {M : ι → Option Checkpoint} {s : State κ}

/-- What setjmp leaves alone, its call included. -/
theorem setjmp_frame (L : Linked P) {after : Word} {t : State κ}
    (returns : SetjmpReturns K (entered s L.setjmp after) t (s.reg rsp-56#64)) (x : Word)
    (away : Outside x (s.reg rdi) 64) (below : Outside x (s.reg rsp-56#64) 56) : t.mem x = s.mem x := by
  have away' : Outside x ((entered s L.setjmp after).reg .rdi) 64 := by simpa [entered] using away
  rw [returns.frame x away' fun j inside => below j (by omega)]
  have slot := put_part s.mem (s.reg rsp-56#64) after x 48 56 below (by omega)
  rwa [sub_add_ofNat _ 56 48 (by omega)] at slot

theorem setjmp_records (L : Linked P) {after : Word} {t : State κ} {v : ι} (env : s.reg rdi = B.addr v)
    (room : B.Room (s.reg rsp)) (returns : SetjmpReturns K (entered s L.setjmp after) t (s.reg rsp-56#64)) :
    Recorded B t.mem v (taken s after) := by
  have same : (entered s L.setjmp after).reg rdi = B.addr v := by simpa [entered] using env
  have saves := returns.saves
  rw [same] at saves
  constructor
  case regs =>
    intro i r listed
    rw [saves.regs i r listed]
    by_cases top : r = rsp
    · subst r
      simp [entered,taken]
    · simp [entered,taken,top]
  case pc => exact saves.pc.trans (entered_top s L.setjmp after)
  case room => exact room

theorem setjmp_serves [DecidableEq ι] (L : Linked P) (silent : Silent K) (recorded : ∀ u c, M u = some c → Recorded B s.mem u c)
    {v : ι} {after : Word} (called : P s.rip = some (.call L.setjmp,after)) (env : s.reg rdi = B.addr v)
    (room : B.Room (s.reg rsp)) :
    ∃ t, Leads P K s t ∧ (taken s after).Lands 0 t ∧
      (∀ x, Outside x (B.addr v) 64 → Outside x (s.reg rsp-56#64) 56 → t.mem x = s.mem x) ∧
      ∀ u c, Function.update M v (some (taken s after)) u = some c → Recorded B t.mem u c := by
  obtain ⟨t,led,returns⟩ := called_leads (K := K) L silent s after called (env ▸ room v)
  have frame := setjmp_frame L returns
  rw [env] at frame
  have resumes := returns.resumes
  refine ⟨t,led,⟨resumes.rip,resumes.rax,?_⟩,frame,?_⟩
  · exact List.forall_mem_cons.mpr ⟨resumes.rsp,resumes.kept⟩
  · intro u c found
    by_cases same : u = v
    · subst u
      rw [Function.update_self] at found
      cases found
      exact setjmp_records L env room returns
    · rw [Function.update_of_ne same] at found
      refine (recorded u c found).lasts fun i inside => frame _ ?_ ?_
      · exact B.apart u v same i inside
      · exact room u i inside

theorem longjmp_serves (L : Linked P) (silent : Silent K) (recorded : ∀ u c, M u = some c → Recorded B s.mem u c)
    {v : ι} {c : Checkpoint} (found : M v = some c) (entry : s.rip = L.longjmp) (env : s.reg rdi = B.addr v) :
    ∃ t, Leads P K s t ∧ c.Lands (s.reg rsi) t ∧
      (∀ x, Outside x (c.reg .rsp-48#64) 48 → t.mem x = s.mem x) ∧ ∀ u d, M u = some d → Recorded B t.mem u d := by
  have record := recorded v c found
  have stack : load s.mem (s.reg rdi+8#64) = c.reg rsp-48#64+40#64 := by
    rw [env,sub_add_ofNat _ 48 40 (by omega)]
    exact record.regs 1 .rsp rfl
  obtain ⟨t,led,jumped⟩ := longjmp_leads (K := K) L silent s (c.reg rsp-48#64) entry stack
  refine ⟨t,led,?_,jumped.frame,?_⟩
  · constructor
    case rip => rw [jumped.rip,env,record.pc]
    case rax => exact jumped.rax
    case kept =>
      refine List.forall_mem_cons.mpr ⟨jumped.rsp.trans (BitVec.sub_add_cancel _ _),fun r member => ?_⟩
      obtain ⟨_,other,i,listed⟩ := calleeSaved_steady r member
      rw [jumped.regs i r listed other,env,record.regs i r listed,if_neg other]
  · intro u d told
    refine (recorded u d told).lasts fun i inside => jumped.frame _ ?_
    exact room_above record.room u i inside

/-- However setjmp and longjmp are called on several bufs, and whatever happens between the
calls: setjmp returns 0, and longjmp comes back to the last setjmp on its own buf, with the
registers that this one found. -/
theorem jumps_land [DecidableEq ι] (L : Linked P) (silent : Silent K) (B : Bufs ι) (n : Nat) (s : State κ) :
    Serves K L B n s fun _ => none := by
  have general (n : Nat) : ∀ s M, (∀ u c, M u = some c → Recorded B s.mem u c) → Serves K L B n s M := by
    induction n with
    | zero => exact fun _ _ _ => trivial
    | succ n ih =>
      intro s M recorded
      refine ⟨?_,?_,?_⟩
      · intro N t spared
        refine ih t N fun u c told => ?_
        obtain ⟨before,kept⟩ := spared u c told
        exact (recorded u c before).lasts kept
      · intro v after called env room
        obtain ⟨t,led,lands,frame,next⟩ := setjmp_serves L silent recorded called env room
        exact ⟨t,led,lands,frame,ih t _ next⟩
      · intro v c found entry env
        obtain ⟨t,led,lands,frame,next⟩ := longjmp_serves L silent recorded found entry env
        exact ⟨t,led,lands,frame,ih t _ next⟩
  exact general n s _ nofun

end Routines

/-! A jump over a second checkpoint. -/

def twoBufs : Bufs Bool where
  addr second := 0x6000#64+BitVec.ofNat 64 (if second then 0x3000 else 0x2000)
  apart v u other := by
    cases v <;> cases u
    · exact absurd rfl other
    · exact apart_same _ 0x2000 0x3000 64 64 (by decide) (by decide) (by decide)
    · exact apart_same _ 0x3000 0x2000 64 64 (by decide) (by decide) (by decide)
    · exact absurd rfl other

theorem twoBufs_room (n : Nat) (small : n+56 ≤ 0x2000) : twoBufs.Room (0x6000#64+BitVec.ofNat 64 n+56#64) := by
  intro v
  rw [BitVec.add_sub_cancel]
  cases v
  · exact apart_same _ 0x2000 n 64 56 (by omega) (by decide) (by omega)
  · exact apart_same _ 0x3000 n 64 56 (by omega) (by decide) (by omega)

/-- A function called later calls setjmp on the second buf. -/
def deeper (t : State κ) : State κ :=
  {t with rip := 0x4000,reg := Function.update (Function.update t.reg rdi 0x9000) rsp 0x6800}

theorem jumps_land_over : ∃ t v w, Leads sampleProgram rejecting (sampleState ()) t ∧
    Leads sampleProgram rejecting (deeper t) v ∧ Leads sampleProgram rejecting (jumpAtOnce v) w ∧
    w.rip = 0x4001 ∧ w.reg rsp = 0x7000 ∧ w.reg rax = 5 := by
  obtain ⟨_,set,_⟩ := jumps_land sampleLinked (fun _ _ _ _ _ => rfl : Silent rejecting) twoBufs 5 (sampleState ())
  obtain ⟨t,led,_,_,own,_,_⟩ := set false 0x4001 rfl rfl (twoBufs_room 0xfc8 (by decide))
  obtain ⟨_,set',_⟩ := own _ (deeper t) fun v c found => ⟨found,fun _ _ => rfl⟩
  obtain ⟨v,led',_,_,own',_,_⟩ := set' true 0x4001 (show sampleProgram 0x4000 = _ from rfl) rfl (twoBufs_room 0x7c8 (by decide))
  obtain ⟨_,_,jump⟩ := own' _ (jumpAtOnce v) fun v c found => ⟨found,fun _ _ => rfl⟩
  obtain ⟨w,led'',lands,_⟩ := jump false (taken (sampleState ()) 0x4001) rfl rfl rfl
  exact ⟨t,v,w,led,led',led'',lands.rip,lands.kept .rsp List.mem_cons_self,lands.rax⟩

end Unixprog.Libmini
