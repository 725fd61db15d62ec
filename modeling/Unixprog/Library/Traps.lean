import Unixprog.Library.Words

/-! A deterministic machine whose code is patched with a one-byte trap. As long as
the program does not look at its own text, the patched machine goes through the
states of the bare one and stops exactly at the patched addresses. -/
namespace Unixprog.Traps
open Words

inductive Next (R : Type)
  | ran (m : Memory) (r : R)
  | exited (code : Nat)

/-- `step` executes the instruction at `ip`, which occupies `size` bytes. -/
structure Machine (R : Type) where
  ip : R → Word
  step : Memory → R → Next R
  size : Memory → R → Nat

inductive Event (R : Type)
  | trapped (m : Memory) (r : R)
  | ran (m : Memory) (r : R)
  | exited (code : Nat)

variable {R : Type}

def Machine.flow (M : Machine R) (m : Memory) (r : R) : Nat → Next R
  | 0 => .ran m r
  | n+1 => match M.flow m r n with
    | .ran m r => M.step m r
    | .exited code => .exited code

def Machine.single (M : Machine R) (trap : Byte) (m : Memory) (r : R) : Event R :=
  if m (M.ip r) = some trap then .trapped m r
  else match M.step m r with
    | .ran m r => .ran m r
    | .exited code => .exited code

/-- Instructions up to a trap or the exit, `none` when the fuel runs out first. -/
def Machine.go (M : Machine R) (trap : Byte) : Nat → Memory → R → Option (Event R)
  | 0,_,_ => none
  | fuel+1,m,r => match M.single trap m r with
    | .ran m r => M.go trap fuel m r
    | event => some event

section Flow
variable {M : Machine R} {trap : Byte} {m : Memory} {r : R}

theorem flow_succ (n : Nat) {m' : Memory} {r' : R} (here : M.flow m r n = .ran m' r') :
    M.flow m r (n+1) = M.step m' r' := by
  simp only [Machine.flow,here]

theorem flow_exited (n : Nat) {code : Nat} (done : M.flow m r n = .exited code) (k : Nat) :
    M.flow m r (n+k) = .exited code := by
  induction k with
  | zero => exact done
  | succ k ih => rw [← Nat.add_assoc,Machine.flow,ih]

theorem flow_add (n k : Nat) {m' : Memory} {r' : R} (here : M.flow m r n = .ran m' r') :
    M.flow m r (n+k) = M.flow m' r' k := by
  induction k with
  | zero => exact here
  | succ k ih => rw [← Nat.add_assoc,Machine.flow,ih,Machine.flow]

theorem single_clean (clean : m (M.ip r) ≠ some trap) : M.single trap m r = match M.step m r with
    | .ran m r => .ran m r
    | .exited code => .exited code := if_neg clean

theorem single_trapped (armed : m (M.ip r) = some trap) : M.single trap m r = .trapped m r := if_pos armed

theorem go_steady (fuel more : Nat) (event : Event R) (enough : fuel ≤ more)
    (done : M.go trap fuel m r = some event) : M.go trap more m r = some event := by
  induction fuel generalizing more m r with
  | zero => cases done
  | succ fuel ih =>
    obtain ⟨more,rfl⟩ : ∃ k, more = k+1 := ⟨more-1,by omega⟩
    simp only [Machine.go] at done ⊢
    cases one : M.single trap m r with
    | ran m' r' =>
      simp only [one] at done ⊢
      exact ih more (by omega) done
    | trapped m' r' => simpa only [one] using done
    | exited code => simpa only [one] using done

theorem go_flow (n : Nat) {m' : Memory} {r' : R} (here : M.flow m r n = .ran m' r')
    (clean : ∀ k < n, ∀ a b, M.flow m r k = .ran a b → a (M.ip b) ≠ some trap) (fuel : Nat) :
    M.go trap (n+fuel) m r = M.go trap fuel m' r' := by
  induction n generalizing m r with
  | zero =>
    cases here
    rw [Nat.zero_add]
  | succ n ih =>
    have first := clean 0 (by omega) m r rfl
    cases ran : M.step m r with
    | exited code =>
      have stuck : M.flow m r (1+n) = .exited code := flow_exited 1 (by simp only [Machine.flow,ran]) n
      rw [Nat.add_comm,here] at stuck
      cases stuck
    | ran m₁ r₁ =>
      have one : M.flow m r 1 = .ran m₁ r₁ := by simp only [Machine.flow,ran]
      have go : M.go trap (n+1+fuel) m r = M.go trap (n+fuel) m₁ r₁ := by
        rw [show n+1+fuel = (n+fuel)+1 by omega,Machine.go]
        simp only [single_clean first,ran]
      rw [go]
      refine ih ?_ ?_
      · rw [← flow_add 1 n one,Nat.add_comm,here]
      · intro k bound a b at'
        refine clean (k+1) (by omega) a b ?_
        rw [Nat.add_comm,flow_add 1 k one,at']

theorem flow_before {n k : Nat} (bound : k ≤ n) {m' : Memory} {r' : R} (here : M.flow m r n = .ran m' r') :
    ∃ a b, M.flow m r k = .ran a b := by
  cases at' : M.flow m r k with
  | ran a b => exact ⟨a,b,rfl⟩
  | exited code =>
    have stuck := flow_exited k at' (n-k)
    rw [Nat.add_sub_cancel' bound,here] at stuck
    cases stuck

theorem go_short (fuel : Nat) {m' : Memory} {r' : R} (here : M.flow m r fuel = .ran m' r')
    (clean : ∀ k < fuel, ∀ a b, M.flow m r k = .ran a b → a (M.ip b) ≠ some trap) :
    M.go trap fuel m r = none := go_flow fuel here clean 0

theorem go_trapped (n : Nat) {m' : Memory} {r' : R} (here : M.flow m r n = .ran m' r')
    (clean : ∀ k < n, ∀ a b, M.flow m r k = .ran a b → a (M.ip b) ≠ some trap)
    (armed : m' (M.ip r') = some trap) (fuel : Nat) :
    M.go trap fuel m r = if n < fuel then some (.trapped m' r') else none := by
  split
  next enough =>
    obtain ⟨k,rfl⟩ : ∃ k, fuel = n+(k+1) := ⟨fuel-n-1,by omega⟩
    rw [go_flow n here clean,Machine.go]
    simp only [single_trapped armed]
  next short =>
    obtain ⟨a,b,there⟩ := flow_before (by omega : fuel ≤ n) here
    exact go_short fuel there fun k bound => clean k (by omega)

theorem flow_last {n code : Nat} (done : M.flow m r n = .exited code) :
    ∃ k m' r', k < n ∧ M.flow m r k = .ran m' r' ∧ M.step m' r' = .exited code := by
  induction n with
  | zero => cases done
  | succ n ih =>
    cases here : M.flow m r n with
    | ran m' r' => exact ⟨n,m',r',by omega,here,by rw [← flow_succ n here,done]⟩
    | exited other =>
      have same := flow_exited n here 1
      rw [done] at same
      cases same
      obtain ⟨k,m',r',bound,there,last⟩ := ih here
      exact ⟨k,m',r',by omega,there,last⟩

theorem go_exited (n : Nat) {code : Nat} (done : M.flow m r n = .exited code)
    (clean : ∀ k a b, M.flow m r k = .ran a b → a (M.ip b) ≠ some trap) (fuel : Nat) (enough : n ≤ fuel) :
    M.go trap fuel m r = some (.exited code) := by
  obtain ⟨k,m',r',bound,here,last⟩ := flow_last done
  obtain ⟨more,rfl⟩ : ∃ more, fuel = k+(more+1) := ⟨fuel-k-1,by omega⟩
  rw [go_flow k here fun i _ => clean i,Machine.go]
  simp only [single_clean (clean k m' r' here),last]

theorem go_some (fuel : Nat) {event : Event R} (done : M.go trap fuel m r = some event) :
    ∃ n, (∀ k < n, ∀ a b, M.flow m r k = .ran a b → a (M.ip b) ≠ some trap) ∧
      ((∃ a b, M.flow m r n = .ran a b ∧ a (M.ip b) = some trap ∧ event = .trapped a b) ∨
        ∃ code, M.flow m r n = .exited code ∧ event = .exited code) := by
  induction fuel generalizing m r with
  | zero => cases done
  | succ fuel ih =>
    by_cases met : m (M.ip r) = some trap
    · rw [Machine.go,single_trapped met] at done
      cases done
      exact ⟨0,fun k bound => absurd bound (Nat.not_lt_zero k),.inl ⟨m,r,rfl,met,rfl⟩⟩
    rw [Machine.go,single_clean met] at done
    cases ran : M.step m r with
    | exited code =>
      simp only [ran,Option.some.injEq] at done
      refine ⟨1,?_,.inr ⟨code,by simp only [Machine.flow,ran],done.symm⟩⟩
      intro k bound a b here
      obtain rfl : k = 0 := by omega
      cases here
      exact met
    | ran m₁ r₁ =>
      simp only [ran] at done
      have one : M.flow m r 1 = .ran m₁ r₁ := by simp only [Machine.flow,ran]
      obtain ⟨n,clean,ending⟩ := ih done
      refine ⟨n+1,?_,?_⟩
      · intro k bound a b here
        cases k with
        | zero =>
          cases here
          exact met
        | succ k =>
          rw [Nat.add_comm,flow_add 1 k one] at here
          exact clean k (by omega) a b here
      · rw [Nat.add_comm,flow_add 1 n one]
        exact ending

theorem flow_first (M : Machine R) (m : Memory) (r : R) (watched : Nat → R → Prop) :
    (∃ n a b, M.flow m r n = .ran a b ∧ watched n b ∧ ∀ k < n, ∀ a b, M.flow m r k = .ran a b → ¬ watched k b) ∨
      ∀ n a b, M.flow m r n = .ran a b → ¬ watched n b := by
  classical
  by_cases met : ∃ n a b, M.flow m r n = .ran a b ∧ watched n b
  · obtain ⟨a,b,here,seen⟩ := Nat.find_spec met
    refine .inl ⟨Nat.find met,a,b,here,seen,?_⟩
    intro k bound a' b' before seen'
    exact Nat.find_min met bound ⟨a',b',before,seen'⟩
  · exact .inr fun n a b here seen => met ⟨n,a,b,here,seen⟩

end Flow

/-! The patched program against the bare one. -/

def armed (trap : Byte) (keys : Word → Bool) (m : Memory) : Memory := fun x => if keys x then some trap else m x

/-- The same step on two memories: outside the text the results are the same, and
each leaves its own text alone. -/
def SameStep (text : Word → Prop) (m other : Memory) : Next R → Next R → Prop
  | .ran a r,.ran b r' => r' = r ∧ (∀ x, ¬ text x → b x = a x) ∧ ∀ x, text x → a x = m x ∧ b x = other x
  | .exited code,.exited code' => code' = code
  | _,_ => False

/-- A program that executes no trap of its own and neither reads nor writes its
text, apart from fetching the instructions it executes. -/
structure Oblivious (M : Machine R) (trap : Byte) (text : Word → Prop) (m₀ : Memory) (r₀ : R) : Prop where
  clean : ∀ n m r, M.flow m₀ r₀ n = .ran m r → m (M.ip r) ≠ some trap
  apart : ∀ n m r other, M.flow m₀ r₀ n = .ran m r → (∀ x, ¬ text x → other x = m x) →
    (∀ i < M.size m r, other (M.ip r+BitVec.ofNat 64 i) = m (M.ip r+BitVec.ofNat 64 i)) →
    SameStep text m other (M.step m r) (M.step other r)

def Boundary (M : Machine R) (m₀ : Memory) (r₀ : R) (a : Word) : Prop :=
  ∀ n m r i, M.flow m₀ r₀ n = .ran m r → 0 < i → i < M.size m r → M.ip r+BitVec.ofNat 64 i ≠ a

section Patched
variable {M : Machine R} {trap : Byte} {text : Word → Prop} {m₀ : Memory} {r₀ : R} {keys : Word → Bool}

theorem flow_text (oblivious : Oblivious M trap text m₀ r₀) (n : Nat) {m : Memory} {r : R}
    (here : M.flow m₀ r₀ n = .ran m r) : ∀ x, text x → m x = m₀ x := by
  induction n generalizing m r with
  | zero =>
    cases here
    intro x _
    rfl
  | succ n ih =>
    intro x inside
    obtain ⟨a,b,before⟩ := flow_before (Nat.le_succ n) here
    have same := oblivious.apart n a b a before (fun _ _ => rfl) (fun _ _ => rfl)
    rw [flow_succ n before] at here
    rw [here] at same
    rw [(same.2.2 x inside).1,ih before x inside]

theorem single_armed (oblivious : Oblivious M trap text m₀ r₀)
    (placed : ∀ a, keys a = true → text a ∧ Boundary M m₀ r₀ a) (n : Nat) {m : Memory} {r : R}
    (here : M.flow m₀ r₀ n = .ran m r) (away : keys (M.ip r) = false) :
    M.single trap (armed trap keys m) r = match M.flow m₀ r₀ (n+1) with
      | .ran m' r' => .ran (armed trap keys m') r'
      | .exited code => .exited code := by
  have clean : armed trap keys m (M.ip r) ≠ some trap := by
    simpa [armed,away] using oblivious.clean n m r here
  have fetched (i : Nat) (small : i < M.size m r) :
      armed trap keys m (M.ip r+BitVec.ofNat 64 i) = m (M.ip r+BitVec.ofNat 64 i) := by
    have free : keys (M.ip r+BitVec.ofNat 64 i) = false := by
      by_cases first : i = 0
      · simpa [first] using away
      · cases key : keys (M.ip r+BitVec.ofNat 64 i) with
        | false => rfl
        | true => exact absurd rfl ((placed _ key).2 n m r i here (Nat.pos_of_ne_zero first) small)
    simp [armed,free]
  have data (x : Word) (outside : ¬ text x) : armed trap keys m x = m x := by
    have free : keys x = false := by
      cases key : keys x with
      | false => rfl
      | true => exact absurd (placed x key).1 outside
    simp [armed,free]
  have same := oblivious.apart n m r _ here data fetched
  rw [single_clean clean,flow_succ n here]
  cases bare : M.step m r with
  | exited code =>
    cases patched : M.step (armed trap keys m) r with
    | exited code' =>
      rw [bare,patched] at same
      rw [same]
    | ran b r' =>
      rw [bare,patched] at same
      exact same.elim
  | ran a r₁ =>
    cases patched : M.step (armed trap keys m) r with
    | exited code' =>
      rw [bare,patched] at same
      exact same.elim
    | ran b r' =>
      rw [bare,patched] at same
      obtain ⟨rfl,outside,inside⟩ := same
      have result : b = armed trap keys a := by
        funext x
        by_cases within : text x
        · rw [(inside x within).2]
          simp only [armed,(inside x within).1]
        · have free : keys x = false := by
            cases key : keys x with
            | false => rfl
            | true => exact absurd (placed x key).1 within
          simp only [outside x within,armed,free,Bool.false_eq_true,if_false]
      simp only [result]

theorem go_armed (oblivious : Oblivious M trap text m₀ r₀)
    (placed : ∀ a, keys a = true → text a ∧ Boundary M m₀ r₀ a) (fuel n : Nat) {m : Memory} {r : R}
    {event : Event R} (here : M.flow m₀ r₀ n = .ran m r)
    (done : M.go trap fuel (armed trap keys m) r = some event) :
    (∃ k m' r', n ≤ k ∧ M.flow m₀ r₀ k = .ran m' r' ∧ keys (M.ip r') = true ∧
        event = .trapped (armed trap keys m') r') ∨
      ∃ k code, M.flow m₀ r₀ k = .exited code ∧ event = .exited code := by
  induction fuel generalizing n m r with
  | zero => cases done
  | succ fuel ih =>
    cases key : keys (M.ip r) with
    | true =>
      rw [Machine.go,single_trapped (by simp [armed,key])] at done
      cases done
      exact .inl ⟨n,m,r,le_rfl,here,key,rfl⟩
    | false =>
      rw [Machine.go,single_armed oblivious placed n here key] at done
      cases after : M.flow m₀ r₀ (n+1) with
      | exited code =>
        simp only [after,Option.some.injEq] at done
        exact .inr ⟨n+1,code,after,done.symm⟩
      | ran m' r' =>
        simp only [after] at done
        obtain ⟨k,a,b,later,found⟩ | ended := ih (n+1) after done
        · exact .inl ⟨k,a,b,by omega,found⟩
        · exact .inr ended

end Patched

end Unixprog.Traps
