import Unixprog.Library.Tokens

/-! The lines of `/proc/<pid>/maps` as the kernel writes them, and what strtok cuts from them. -/
namespace Unixprog.ProcMaps
open CStrings

/-- One line. `gap` counts the blanks after the inode number, also when no path follows. -/
structure Mapping where
  start : BitVec 64
  stop : BitVec 64
  readable : Bool
  writable : Bool
  executable : Bool
  shared : Bool
  offset : BitVec 64
  major : Nat
  minor : Nat
  inode : BitVec 64
  gap : Nat
  path : List Char
  text : (path.all fun c => c ≠ '\n' && c ≠ '\x00') = true
  apart : path ≠ [] → 0 < gap

def Mapping.access (m : Mapping) : List Char :=
  [if m.readable then 'r' else '-',if m.writable then 'w' else '-',if m.executable then 'x' else '-']

def Mapping.perms (m : Mapping) : List Char := m.access ++ [if m.shared then 's' else 'p']

def Mapping.device (m : Mapping) : List Char := hexText 2 m.major ++ ':'::hexText 2 m.minor

def Mapping.fromInode (m : Mapping) : List Char :=
  Nat.toDigits 10 m.inode.toNat ++ (List.replicate m.gap ' ' ++ (m.path ++ ['\n']))

def Mapping.fromOffset (m : Mapping) : List Char :=
  hexText 8 m.offset.toNat ++ ' '::(m.device ++ ' '::m.fromInode)

def Mapping.line (m : Mapping) : List Char :=
  hexText 8 m.start.toNat ++ '-'::(hexText 8 m.stop.toNat ++ ' '::(m.perms ++ ' '::m.fromOffset))

/-! The cuts. -/

def Mapping.inodeToken (m : Mapping) : List Char :=
  if m.gap = 0 then Nat.toDigits 10 m.inode.toNat ++ ['\n'] else Nat.toDigits 10 m.inode.toNat

def Mapping.fromName (m : Mapping) : List Char :=
  if m.gap = 0 then [] else List.replicate (m.gap-1) ' ' ++ (m.path ++ ['\n'])

def Mapping.nameToken (m : Mapping) : Option (List Char) := (strtok [' '] m.fromName).1

def firstWord (path : List Char) : List Char := (path.dropWhile (· = ' ') ++ ['\n']).takeWhile (· ≠ ' ')

section Cuts
variable (m : Mapping)

theorem hexText_plain {d : Char} (other : hexDigit d = none) (width value : Nat) :
    ∀ c ∈ hexText width value, c ∉ [d] := by
  intro c member same
  exact hex_apart (hexText_hex width value c member) other (by simpa using same)

theorem path_newline : '\n' ∉ m.path := by
  intro member
  have clean := List.all_eq_true.mp m.text _ member
  simp at clean

theorem pathless (none : m.gap = 0) : m.path = [] := by
  by_contra some
  have positive := m.apart some
  omega

theorem strtok_start : strtok ['-'] m.line =
    (some (hexText 8 m.start.toNat),hexText 8 m.stop.toNat ++ ' '::(m.perms ++ ' '::m.fromOffset)) :=
  strtok_first (hexText_some _ _) (hexText_plain (by decide) _ _) (by simp)

theorem strtok_stop : strtok [' '] (hexText 8 m.stop.toNat ++ ' '::(m.perms ++ ' '::m.fromOffset)) =
    (some (hexText 8 m.stop.toNat),m.perms ++ ' '::m.fromOffset) :=
  strtok_first (hexText_some _ _) (hexText_plain (by decide) _ _) (by simp)

theorem access_plain {d : Char} (other : d ∉ ['r','w','x','-']) : ∀ c ∈ m.access, c ∉ [d] := by
  intro c member same
  simp only [List.mem_singleton] at same
  subst same
  simp only [Mapping.access,List.mem_cons,List.not_mem_nil,or_false] at member
  apply other
  rcases member with rfl | rfl | rfl <;> split <;> simp

theorem strtok_offset (gap : List Char) (gaps : ∀ c ∈ gap, c ∈ [' ']) : strtok [' '] (gap ++ m.fromOffset) =
    (some (hexText 8 m.offset.toNat),m.device ++ ' '::m.fromInode) :=
  strtok_token gaps (hexText_some _ _) (hexText_plain (by decide) _ _) (by simp)

theorem strtok_device : strtok [' '] (m.device ++ ' '::m.fromInode) = (some m.device,m.fromInode) := by
  refine strtok_first (by simp [Mapping.device]) ?_ (by simp)
  intro c member
  obtain one | two := List.mem_append.mp member
  · exact hexText_plain (by decide) _ _ c one
  · rcases List.mem_cons.mp two with rfl | two
    · simp
    · exact hexText_plain (by decide) _ _ c two

theorem decimal_plain {d : Char} (other : decDigit d = none) (value : Nat) :
    ∀ c ∈ Nat.toDigits 10 value, c ∉ [d] := by
  intro c member same
  have digit := toDigits_dec value c member
  rw [List.mem_singleton.mp same,other] at digit
  cases digit

theorem strtok_inode : strtok [' '] m.fromInode = (some m.inodeToken,m.fromName) := by
  unfold Mapping.fromInode Mapping.inodeToken Mapping.fromName
  by_cases none : m.gap = 0
  · rw [if_pos none,if_pos none,none,pathless m none]
    refine strtok_only (by simp) ?_
    intro c member
    obtain digit | newline := List.mem_append.mp member
    · exact decimal_plain (by decide) _ c digit
    · simp [List.mem_singleton.mp newline]
  · obtain ⟨more,counted⟩ := Nat.exists_eq_succ_of_ne_zero none
    rw [if_neg none,if_neg none,counted,List.replicate_succ,List.cons_append]
    exact strtok_first Nat.toDigits_ne_nil (decimal_plain (by decide) _) (by simp)

theorem blanks_plain (count : Nat) : ∀ c ∈ List.replicate count ' ', c ∈ [' '] := by
  intro c member
  simp [List.eq_of_mem_replicate member]

theorem nameToken_none (none : m.gap = 0) : m.nameToken = Option.none := by
  rw [Mapping.nameToken,Mapping.fromName,if_pos none]
  rfl

theorem nameToken_some (some : m.gap ≠ 0) : m.nameToken = Option.some (firstWord m.path) := by
  have last (path : List Char) : (path ++ ['\n']).dropWhile (· ∈ [' ']) = path.dropWhile (· = ' ') ++ ['\n'] := by
    induction path with
    | nil => rfl
    | cons c path ih =>
      by_cases blank : c = ' '
      · simpa [blank,List.dropWhile] using ih
      · simp [blank,List.dropWhile]
  have kept : (m.fromName).dropWhile (· ∈ [' ']) = m.path.dropWhile (· = ' ') ++ ['\n'] := by
    rw [Mapping.fromName,if_neg some,dropWhile_gap (blanks_plain _)]
    exact last m.path
  rw [Mapping.nameToken,strtok_nonempty (by rw [kept]; simp),kept,firstWord]
  simp

theorem firstWord_plain {path : List Char} (plain : ' ' ∉ path) : firstWord path = path ++ ['\n'] := by
  have kept : path.dropWhile (· = ' ') = path := by
    cases path with
    | nil => rfl
    | cons c path =>
      refine List.dropWhile_cons_of_neg ?_
      rw [decide_eq_true_iff]
      rintro rfl
      exact plain List.mem_cons_self
  rw [firstWord,kept,List.takeWhile_eq_self_iff]
  intro c member
  rw [decide_eq_true_iff]
  rintro rfl
  obtain inside | newline := List.mem_append.mp member
  · exact plain inside
  · cases List.mem_singleton.mp newline

theorem firstWord_blank (path : List Char) : ' ' ∉ firstWord path := by
  intro member
  simpa using List.mem_takeWhile_imp member

theorem firstWord_some (path : List Char) : firstWord path ≠ [] := by
  unfold firstWord
  cases kept : path.dropWhile (· = ' ') with
  | nil => simp
  | cons c rest =>
    have first := List.head_dropWhile_not (fun c : Char => decide (c = ' ')) (l := path) (by rw [kept]; simp)
    simp only [kept,List.head_cons,decide_eq_false_iff_not] at first
    simp [first]

theorem firstWord_cut {word after : List Char} (some : word ≠ []) (plain : ' ' ∉ word) :
    firstWord (word ++ ' '::after) = word := by
  have nonblank : ∀ c ∈ word, c ∉ [' '] := by
    intro c member same
    rw [List.mem_singleton.mp same] at member
    exact plain member
  have kept := dropWhile_token some nonblank (' '::after)
  have taken := takeWhile_token nonblank (' '::after ++ ['\n'])
  simp only [List.mem_singleton] at kept taken
  rw [firstWord,kept,List.append_assoc,taken]
  simp

end Cuts

end Unixprog.ProcMaps
