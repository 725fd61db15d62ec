import Unixprog.Library.Paths
import Unixprog.Logger.Records

/-! The file system under the calls that take a path: what realpath answers, and what
a successful call does. -/
namespace Unixprog.Logger
open Words Plays Paths

/-- The files and the working directory, which may have been removed. `left` is what a failing
realpath leaves of a path in the array that it was given. -/
structure Files where
  tree : Tree
  cwd : Position
  stands : tree.Stands cwd
  left : Tree → Position → Str → Str

def Files.find (w : Files) (keep : Bool) (path : Str) : Option Found := w.tree.find keep w.cwd path

def PATH_MAX : Nat := 4096

/-- A relative path needs the name of the working directory. -/
def Files.realpath (w : Files) : Path → Resolution
  | none => .fault
  | some path =>
    if absolute path = true ∨ w.cwd.below = 0 then
      match w.find false path with
      | some (.there pos) => if (render pos.place).length < PATH_MAX then .path (render pos.place)
        else .failed (w.left w.tree w.cwd path)
      | _ => .failed (w.left w.tree w.cwd path)
    else .failed (w.left w.tree w.cwd path)

/-- The entry that remove or rename acts on: the last name of the path, which is not followed. -/
def Files.entry (w : Files) (path : Str) : Option Found :=
  match (names path).getLast? with
  | none => none
  | some name =>
    if name = ['.'] ∨ name = ['.','.'] then none
    else w.tree.walk true MAXSYMLINKS (w.cwd.origin path) (names path)

/-- A removed directory has no place any more. -/
def Files.inode (w : Files) (pos : Position) : Option Nat :=
  if pos.below = 0 then (w.tree.node pos.place).map Node.ino else none

def Files.removed (w : Files) {place : Place} (gone : Removable w.tree place) : Files where
  tree := w.tree.remove gone
  cwd := w.cwd.afterRemove place
  stands := remove_stands gone w.stands
  left := w.left

def Files.renamed (w : Files) {old place : Place} {name : Name} (free : Movable w.tree old name place) : Files where
  tree := w.tree.move free
  cwd := w.cwd.afterMove old (name::place)
  stands := move_stands free w.stands
  left := w.left

def Files.created (w : Files) {name : Name} {place : Place} (room : Creatable w.tree name place) {ino : Nat}
    (fresh : ∀ p n, w.tree.node p = some n → n.ino ≠ ino) : Files where
  tree := w.tree.create room fresh
  cwd := w.cwd
  stands := create_stands room fresh w.stands
  left := w.left

/-! The flags of open that decide which object it opens. -/

def O_CREAT : BitVec 32 := 0x40
def O_EXCL : BitVec 32 := 0x80
def O_DIRECTORY : BitVec 32 := 0x10000
def O_NOFOLLOW : BitVec 32 := 0x20000
def O_PATH : BitVec 32 := 0x200000
def O_TMPFILE_BIT : BitVec 32 := 0x400000

def has (flags bit : BitVec 32) : Bool := flags &&& bit ≠ 0

/-- Whether open takes a link at the end of the path for itself. -/
def keeps (flags : BitVec 32) : Bool := has flags O_NOFOLLOW || !has flags O_PATH && has flags O_CREAT && has flags O_EXCL

/-- What a successful open has made of the files, and the inode it opened, `none` if that has no
place in the tree. Permissions may make it fail. -/
inductive Opens (w : Files) (path : Str) (flags : BitVec 32) : Files → Option Nat → Prop
  | handle {pos : Position} (only : has flags O_PATH = true) (found : w.find (keeps flags) path = some (.there pos))
      (dir : has flags O_DIRECTORY = true → w.tree.isDir pos = true) : Opens w path flags w (w.inode pos)
  | unnamed {pos : Position} (full : has flags O_PATH = false) (temporary : has flags O_TMPFILE_BIT = true)
      (old : has flags O_CREAT = false) (directory : has flags O_DIRECTORY = true)
      (found : w.find (keeps flags) path = some (.there pos)) (dir : w.tree.isDir pos = true) :
      Opens w path flags w none
  | existing {pos : Position} (full : has flags O_PATH = false) (named : has flags O_TMPFILE_BIT = false)
      (old : has flags O_CREAT = false) (found : w.find (keeps flags) path = some (.there pos))
      (solid : w.tree.Solid pos) (dir : has flags O_DIRECTORY = true → w.tree.isDir pos = true) :
      Opens w path flags w (w.inode pos)
  | reused {place : Place} {ino : Nat} (full : has flags O_PATH = false) (named : has flags O_TMPFILE_BIT = false)
      (creates : has flags O_CREAT = true) (shared : has flags O_EXCL = false) (plain : has flags O_DIRECTORY = false)
      (unslashed : slashed path = false) (found : w.find (keeps flags) path = some (.there ⟨0,place⟩))
      (file : w.tree.node place = some ⟨ino,.file⟩) : Opens w path flags w (some ino)
  | created {name : Name} {place : Place} {ino : Nat} (full : has flags O_PATH = false)
      (named : has flags O_TMPFILE_BIT = false) (creates : has flags O_CREAT = true) (plain : has flags O_DIRECTORY = false)
      (unslashed : slashed path = false) (found : w.find (keeps flags) path = some (.missing (name::place)))
      (room : Creatable w.tree name place) (fresh : ∀ p n, w.tree.node p = some n → n.ino ≠ ino) :
      Opens w path flags (w.created room fresh) (some ino)

/-- The mode of fopen as flags, of which + does not change those that matter here. -/
def fopenFlags : Str → Option (BitVec 32)
  | [] => none
  | first::others =>
    let exclusive := if 'x' ∈ others.take 6 then O_EXCL else 0
    if first = 'r' then some exclusive
    else if first = 'w' ∨ first = 'a' then some (O_CREAT ||| exclusive)
    else none

/-- The path that a call opens, with the flags. -/
def Call.opening : Call → Option (Str × BitVec 32)
  | .creat (some path) _ => some (path,O_CREAT)
  | .creat64 (some path) _ => some (path,O_CREAT)
  | .open (some path) flags _ => some (path,flags)
  | .open64 (some path) flags _ => some (path,flags)
  | .fopen (some path) mode => (fopenFlags mode).map (path,·)
  | .fopen64 (some path) mode => (fopenFlags mode).map (path,·)
  | _ => none

/-- What a successful call has made of the files. `seen` lists the inodes it acted on, in the order of
its paths, each with the files among which a path in the record is to denote it. -/
inductive Acts (w : Files) : Call → Files → List (Files × Option Nat) → Prop
  | removed {path : Str} {place : Place} {n : Node} (entry : w.entry path = some (.there ⟨0,place⟩))
      (found : w.tree.node place = some n) (gone : Removable w.tree place) (dir : slashed path = true → n.kind = .dir) :
      Acts w (.remove (some path)) (w.removed gone) [(w,some n.ino)]
  | renamed {old new : Str} {source place : Place} {name : Name} {m : Node} {f : Found}
      (entry : w.entry old = some (.there ⟨0,source⟩)) (found : w.tree.node source = some m)
      (entry' : w.entry new = some f) (arrives : f.pos.place = name::place) (free : Movable w.tree source name place)
      (dir : slashed old = true ∨ slashed new = true → m.kind = .dir)
      (replaced : ∀ r, w.tree.node (name::place) = some r → r.ino ≠ m.ino ∧ (r.kind = .dir ↔ m.kind = .dir)) :
      Acts w (.rename (some old) (some new)) (w.renamed free) [(w,some m.ino),(w.renamed free,some m.ino)]
  | unmoved {old new : Str} {source place : Place} {m r : Node} (entry : w.entry old = some (.there ⟨0,source⟩))
      (found : w.tree.node source = some m) (entry' : w.entry new = some (.there ⟨0,place⟩))
      (found' : w.tree.node place = some r) (same : r.ino = m.ino)
      (dir : slashed old = true ∨ slashed new = true → m.kind = .dir) :
      Acts w (.rename (some old) (some new)) w [(w,some m.ino),(w,some m.ino)]
  | opened {call : Call} {path : Str} {flags : BitVec 32} {w' : Files} {object : Option Nat}
      (opening : call.opening = some (path,flags)) (opens : Opens w path flags w' object) :
      Acts w call w' [(w',object)]

/-- The path leads to the inode, and not through a link at its end. -/
def Denotes (w : Files) (path : Str) (object : Option Nat) : Prop :=
  absolute path = true ∧ object.isSome = true ∧ ∃ pos, w.find true path = some (.there pos) ∧ w.inode pos = object

end Unixprog.Logger
