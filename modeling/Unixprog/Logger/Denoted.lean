import Unixprog.Library.Guided
import Unixprog.Logger.Files

/-! Whether the paths in a record denote what the call acted on. -/
namespace Unixprog.Logger
open Words Plays Paths

def Call.succeeded (result : Int) : Call → Prop
  | .remove _ => result = 0
  | .rename _ _ => result = 0
  | .fopen _ _ => result ≠ 0
  | .fopen64 _ _ => result ≠ 0
  | _ => 0 ≤ result

/-- The functions are found and LOGGER is set, realpath answers from the files as they are, and the call
succeeds and leaves the files `w'`. -/
def Guide (w' w : Files) (x : Sigma Answer) (v : Files) : Prop :=
  match x with
  | ⟨.realpath path,a⟩ => a.value = w.realpath path ∧ v = w
  | ⟨.real call,a⟩ => call.succeeded a.value ∧ v = w'
  | ⟨.dlopen,a⟩ => a.value = true ∧ v = w
  | ⟨.dlsym _,a⟩ => a.value = true ∧ v = w
  | ⟨.logger,a⟩ => a.value.isSome = true ∧ v = w
  | _ => v = w

/-- The paths that the record got. -/
def resolved (play : List (Sigma Answer)) : List Str := play.filterMap fun x =>
  match x with
  | ⟨.realpath _,a⟩ => match a.value with
    | .path name => some name
    | .failed _ => some "untouched".toList
    | .fault => none
  | _ => none

def texts (play : List (Sigma Answer)) : List Str := (logged play).map Prod.snd

/-- What stands in a record behind the paths. -/
def Call.others : Call → List Str
  | .creat _ mode => [octal mode]
  | .creat64 _ mode => [octal mode]
  | .open _ flags mode => [octal flags,octal (modeOf flags mode)]
  | .open64 _ flags mode => [octal flags,octal (modeOf flags mode)]
  | .fopen _ mode => [quoted mode]
  | .fopen64 _ mode => [quoted mode]
  | _ => []

def Call.line (call : Call) (paths : List Str) (result : Int) : Str :=
  record call.fn (paths.map quoted ++ call.others) (call.shown result)

/-- Every play comes to its end and writes one line, whose paths denote what was seen. -/
def Reports (w w' : Files) (p : Op Int) (line : List Str → Int → Str) (seen : List (Files × Option Nat)) : Prop :=
  Achieves (Guide w') p w fun _ play value => texts play = [line (resolved play) value] ∧
    List.Forall₂ (fun path object => Denotes object.1 path object.2) (resolved play) seen

/-- The record of a call that acts on what is seen is right. -/
def Right (w : Files) (call : Call) (w' : Files) (seen : List (Files × Option Nat)) : Prop :=
  Reports w w' call.perform call.line seen

/-! What the parts of a wrapper resolve and write. -/

/-- From the files `w` the task comes to `v`. -/
def Does {α : Type} (w' : Files) (p : Op α) (w v : Files) (post : α → List Str → List Str → Prop) : Prop :=
  Achieves (Guide w') p w fun u play value => u = v ∧ post value (resolved play) (texts play)

theorem resolved_append (first second : List (Sigma Answer)) :
    resolved (first ++ second) = resolved first ++ resolved second := List.filterMap_append

theorem texts_append (first second : List (Sigma Answer)) : texts (first ++ second) = texts first ++ texts second := by
  rw [texts,logged_append,List.map_append,texts,texts]

section Parts
variable {α β : Type} {w' w v u : Files}

theorem does_pure {post : α → List Str → List Str → Prop} (value : α) (told : post value [] []) :
    Does w' (pure value : Op α) w w post := achieves_pure value ⟨rfl,told⟩

theorem does_bind {middle : β → List Str → List Str → Prop} {post : α → List Str → List Str → Prop} {first : Op β}
    {next : β → Op α} (one : Does w' first w v middle) (two : ∀ value rs ts, middle value rs ts →
      Does w' (next value) v u fun result rs' ts' => post result (rs ++ rs') (ts ++ ts')) :
    Does w' (first >>= next) w u post := by
  refine achieves_bind one ?_
  rintro _ before value ⟨rfl,told⟩
  refine (two value _ _ told).weaken ?_
  rintro _ play result ⟨same,rest⟩
  rw [resolved_append,texts_append]
  exact ⟨same,rest⟩

/-- Neither resolves a path nor writes. -/
abbrev Quiet (w' : Files) (p : Op α) (w v : Files) : Prop := Does w' p w v fun _ rs ts => rs = [] ∧ ts = []

theorem quiet_then {post : α → List Str → List Str → Prop} {first : Op β} {next : β → Op α} (one : Quiet w' first w v)
    (two : ∀ value, Does w' (next value) v u post) : Does w' (first >>= next) w u post := by
  refine does_bind one ?_
  rintro value _ _ ⟨rfl,rfl⟩
  exact two value

theorem quiet_lookup (f : Fn) : Quiet w' (find_fptr f >>= fun _ => CHECKER f) w w := by
  refine achieves_cases (lookup f) (lookup_run f) fun s => ?_
  unfold lookup
  split
  next => exact achieves_pure () ⟨rfl,rfl,rfl⟩
  next =>
    refine achieves_query _ ?_
    rintro handle _ ⟨opened,rfl⟩
    rw [if_pos opened]
    refine achieves_query _ ?_
    rintro symbol _ ⟨found,rfl⟩
    rw [if_pos found]
    exact achieves_update _ ⟨rfl,rfl,rfl⟩

theorem quiet_callReal (call : Call) : Quiet w' (callReal call) w w' := by
  refine achieves_query _ ?_
  rintro reply _ ⟨_,rfl⟩
  exact achieves_pure _ ⟨rfl,rfl,rfl⟩

theorem quiet_getFD : Quiet w' getFD w w := by
  refine achieves_state fun s => ?_
  split
  next =>
    refine achieves_query _ ?_
    rintro ⟨logger,errno⟩ w ⟨set,rfl⟩
    cases logger with
    | none => cases set
    | some fd =>
      have stored : Quiet w' (update fun s => {s with fd := fd} : Op Unit) w w := achieves_update _ ⟨rfl,rfl,rfl⟩
      have returned : Quiet w' (pure fd : Op Int) w w := does_pure fd ⟨rfl,rfl⟩
      exact quiet_then stored fun _ => returned
  next => exact achieves_pure _ ⟨rfl,rfl,rfl⟩

theorem does_log (text : Str) : Does w' (log text) w w fun _ rs ts => rs = [] ∧ ts = [text] := by
  refine quiet_then quiet_getFD fun fd => achieves_query _ ?_
  rintro reply _ rfl
  exact achieves_pure () ⟨rfl,rfl,rfl⟩

/-- What getAbsPath makes of an answer, `none` if it does not come to an end. -/
def shown : Resolution → Option Str
  | .path name => if name.length < BUFSIZE then some name else none
  | .failed left => if left.length < BUFSIZE then some "untouched".toList else none
  | .fault => none

theorem does_getAbsPath {path : Path} {name : Str} (short : shown (w.realpath path) = some name) :
    Does w' (getAbsPath path) w w fun value rs ts => value = name ∧ rs = [name] ∧ ts = [] := by
  refine achieves_query _ ?_
  rintro ⟨value,errno⟩ _ ⟨answered,rfl⟩
  rw [← answered] at short
  cases value with
  | path r_path =>
    rw [shown] at short
    split_ifs at short with fits
    cases short
    dsimp only
    rw [if_pos fits]
    exact achieves_pure _ ⟨rfl,rfl,rfl,rfl⟩
  | failed left =>
    rw [shown] at short
    split_ifs at short with fits
    cases short
    dsimp only
    rw [if_pos fits]
    exact achieves_pure _ ⟨rfl,rfl,rfl,rfl⟩
  | fault => cases short

theorem breaks_getAbsPath {path : Path} (long : shown (w.realpath path) = none) :
    Breaks (Guide w') (getAbsPath path) w := by
  refine breaks_query _ ?_
  rintro ⟨value,errno⟩ _ ⟨answered,rfl⟩
  rw [← answered] at long
  cases value with
  | path r_path =>
    rw [shown] at long
    split_ifs at long with fits
    dsimp only
    rw [if_neg fits]
    exact breaks_stop _
  | failed left =>
    rw [shown] at long
    split_ifs at long with fits
    dsimp only
    rw [if_neg fits]
    exact breaks_stop _
  | fault => exact breaks_stop _

theorem does_last (text : Str) (result : Int) :
    Does w' (log text >>= fun _ => pure result : Op Int) w w fun value rs ts => value = result ∧ rs = [] ∧ ts = [text] := by
  refine does_bind (does_log text) ?_
  rintro _ _ _ ⟨rfl,rfl⟩
  exact does_pure result ⟨rfl,rfl,rfl⟩

end Parts

/-! The wrappers. -/

def Files.shown (w : Files) (path : Str) : Option Str := Logger.shown (w.realpath (some path))

section Wrappers
variable {w' w : Files}

theorem guide_able (w' w : Files) (q : Query) : ∃ a v, Guide w' w ⟨q,a⟩ v := by
  cases q with
  | realpath path => exact ⟨⟨w.realpath path,none⟩,w,rfl,rfl⟩
  | real call =>
    obtain ⟨result,fine⟩ : ∃ result, call.succeeded result := by
      cases call <;> first | exact ⟨(0 : Int),rfl⟩ | exact ⟨(1 : Int),one_ne_zero⟩ | exact ⟨(0 : Int),le_refl (0 : Int)⟩
    exact ⟨⟨result,none⟩,w',fine,rfl⟩
  | dlopen => exact ⟨⟨true,none⟩,w,rfl,rfl⟩
  | dlsym f => exact ⟨⟨true,none⟩,w,rfl,rfl⟩
  | logger => exact ⟨⟨some 2,none⟩,w,rfl,rfl⟩
  | getpid => exact ⟨⟨1,none⟩,w,rfl⟩
  | fileno stream => exact ⟨⟨0,none⟩,w,rfl⟩
  | readlink path => exact ⟨⟨none,none⟩,w,rfl⟩
  | dprintf fd text => exact ⟨⟨0,none⟩,w,rfl⟩
  | fprintf text => exact ⟨⟨(),none⟩,w,rfl⟩
  | peek address => exact ⟨⟨none,none⟩,w,rfl⟩

/-- A wrapper that shows so many paths reports exactly if each is shown and denotes what was seen. -/
theorem reports_iff {p : Op Int} {line : List Str → Int → Str} (asked : Option (List Str))
    {seen : List (Files × Option Nat)}
    (comes : ∀ names, asked = some names → Does w' p w w' fun value rs ts => rs = names ∧ ts = [line names value])
    (breaks : asked = none → Breaks (Guide w') p w) :
    Reports w w' p line seen ↔
      ∃ names, asked = some names ∧ List.Forall₂ (fun path object => Denotes object.1 path object.2) names seen := by
  constructor
  · intro reports
    obtain ⟨play,ending,u,goes,follows⟩ := follows_exists (guide_able w') (p.run .initial) w
    obtain ⟨value,after,ended,_,denote⟩ := reports _ play ending u goes follows
    cases known : asked with
    | none =>
      have stopped := breaks known _ play ending u goes follows
      rw [ended] at stopped
      cases stopped
    | some names =>
      obtain ⟨_,_,_,_,same,_⟩ := comes names known _ play ending u goes follows
      exact ⟨names,rfl,same ▸ denote⟩
  · rintro ⟨names,known,denote⟩
    refine (comes names known).weaken ?_
    rintro _ play value ⟨_,same,written⟩
    rw [same]
    exact ⟨written,denote⟩

def Traces (w : Files) (path : Str) (object : Option Nat) : Prop := ∃ name, w.shown path = some name ∧ Denotes w name object

theorem lookup_does (f : Fn) {rest : Op Int} {post : Int → List Str → List Str → Prop} {v : Files}
    (does : Does w' rest w v post) : Does w' (find_fptr f >>= fun _ => CHECKER f >>= fun _ => rest) w v post := by
  rw [← then_assoc]
  exact quiet_then (quiet_lookup f) fun _ => does

theorem lookup_breaks (f : Fn) {rest : Op Int} (breaks : Breaks (Guide w') rest w) :
    Breaks (Guide w') (find_fptr f >>= fun _ => CHECKER f >>= fun _ => rest) w := by
  rw [← then_assoc]
  refine breaks_bind (quiet_lookup f) ?_
  rintro _ _ _ ⟨rfl,_⟩
  exact breaks

theorem reports_single {p : Op Int} {line : List Str → Int → Str} {path : Str} {v : Files} {object : Option Nat}
    (comes : ∀ name, v.shown path = some name → Does w' p w w' fun value rs ts => rs = [name] ∧ ts = [line [name] value])
    (breaks : v.shown path = none → Breaks (Guide w') p w) : Reports w w' p line [(v,object)] ↔ Traces v path object := by
  refine (reports_iff ((v.shown path).map ([·])) ?_ ?_).trans ?_
  · intro names known
    obtain ⟨name,shows,rfl⟩ := Option.map_eq_some_iff.mp known
    exact comes name shows
  · exact fun known => breaks (Option.map_eq_none_iff.mp known)
  · constructor
    · rintro ⟨names,known,denote⟩
      obtain ⟨name,shows,rfl⟩ := Option.map_eq_some_iff.mp known
      exact ⟨name,shows,(List.forall₂_cons.mp denote).1⟩
    · rintro ⟨name,shows,denotes⟩
      exact ⟨[name],Option.map_eq_some_iff.mpr ⟨name,shows,rfl⟩,.cons denotes .nil⟩

theorem reports_resolveFirst (f : Fn) (path : Str) (real : Call) (line : List Str → Int → Str) (object : Option Nat) :
    Reports w w' (resolveFirst f (some path) real fun r_path => line [r_path]) line [(w,object)] ↔ Traces w path object := by
  refine reports_single ?_ ?_
  · intro name shows
    refine lookup_does f (does_bind (does_getAbsPath shows) ?_)
    rintro r_path _ _ ⟨rfl,rfl,rfl⟩
    refine quiet_then (quiet_callReal real) fun result => (does_last _ result).weaken ?_
    rintro _ _ value ⟨same,rfl,resolves,writes⟩
    exact ⟨same,by rw [resolves]; rfl,by rw [writes]; rfl⟩
  · intro fails
    exact lookup_breaks f (breaks_first _ (breaks_getAbsPath fails))

theorem reports_resolveLast (f : Fn) (path : Str) (real : Call) (line : List Str → Int → Str) (object : Option Nat) :
    Reports w w' (resolveLast f (some path) real fun r_path => line [r_path]) line [(w',object)] ↔ Traces w' path object := by
  refine reports_single ?_ ?_
  · intro name shows
    refine lookup_does f (quiet_then (quiet_callReal real) fun result => does_bind (does_getAbsPath shows) ?_)
    rintro r_path _ _ ⟨rfl,rfl,rfl⟩
    refine (does_last _ result).weaken ?_
    rintro _ _ value ⟨same,rfl,resolves,writes⟩
    exact ⟨same,by rw [resolves]; rfl,by rw [writes]; rfl⟩
  · intro fails
    refine lookup_breaks f (breaks_bind (quiet_callReal real) ?_)
    rintro _ _ _ ⟨rfl,_⟩
    exact breaks_first _ (breaks_getAbsPath fails)

theorem reports_rename (old new : Str) (object object' : Option Nat) :
    Reports w w' (Logger.rename (some old) (some new)) (Call.line (.rename (some old) (some new)))
      [(w,object),(w',object')] ↔ Traces w old object ∧ Traces w' new object' := by
  let asked := (w.shown old).bind fun r_old => (w'.shown new).map fun r_new => [r_old,r_new]
  refine (reports_iff asked ?_ ?_).trans ?_
  · intro names known
    obtain ⟨r_old,shows,known⟩ := Option.bind_eq_some_iff.mp known
    obtain ⟨r_new,shows',rfl⟩ := Option.map_eq_some_iff.mp known
    refine lookup_does .rename (does_bind (does_getAbsPath shows) ?_)
    rintro _ _ _ ⟨rfl,rfl,rfl⟩
    refine quiet_then (quiet_callReal _) fun result => does_bind (does_getAbsPath shows') ?_
    rintro _ _ _ ⟨rfl,rfl,rfl⟩
    refine (does_last _ result).weaken ?_
    rintro _ _ value ⟨same,rfl,resolves,writes⟩
    exact ⟨same,by rw [resolves]; rfl,by rw [writes]; rfl⟩
  · intro fails
    refine lookup_breaks .rename ?_
    cases shows : w.shown old with
    | none => exact breaks_first _ (breaks_getAbsPath shows)
    | some r_old =>
      have fails' : w'.shown new = none := by simpa [asked,shows] using fails
      refine breaks_bind (does_getAbsPath shows) ?_
      rintro w _ _ ⟨rfl,_⟩
      refine breaks_bind (quiet_callReal _) ?_
      rintro w' _ _ ⟨rfl,_⟩
      exact breaks_first _ (breaks_getAbsPath fails')
  · constructor
    · rintro ⟨names,known,denote⟩
      obtain ⟨r_old,shows,known⟩ := Option.bind_eq_some_iff.mp known
      obtain ⟨r_new,shows',rfl⟩ := Option.map_eq_some_iff.mp known
      obtain ⟨one,two⟩ := List.forall₂_cons.mp denote
      exact ⟨⟨r_old,shows,one⟩,⟨r_new,shows',(List.forall₂_cons.mp two).1⟩⟩
    · rintro ⟨⟨r_old,shows,one⟩,⟨r_new,shows',two⟩⟩
      refine ⟨[r_old,r_new],?_,.cons one (.cons two .nil)⟩
      exact Option.bind_eq_some_iff.mpr ⟨r_old,shows,Option.map_eq_some_iff.mpr ⟨r_new,shows',rfl⟩⟩

end Wrappers

/-! When a path is shown that denotes the object. -/

/-- The name fits in the buffer, and realpath can give it. -/
def Files.Fits (w : Files) (path : Str) (place : Place) : Prop :=
  (render place).length < BUFSIZE ∧ (absolute path = true ∨ w.cwd.below = 0)

def Files.IsLink (w : Files) (place : Place) : Prop := ∃ ino target, w.tree.node place = some ⟨ino,.link target⟩

section Shown
variable {w : Files} {path : Str} {keep : Bool} {pos : Position}

theorem find_leads {f : Found} (found : w.find keep path = some f) :
    path ≠ [] ∧ Leads w.tree keep MAXSYMLINKS (w.cwd.origin path) (words path) f := by
  unfold Files.find Tree.find at found
  split_ifs at found with empty
  exact ⟨empty,walk_leads found⟩

theorem leads_find {f : Found} (filled : path ≠ [])
    (leads : Leads w.tree keep MAXSYMLINKS (w.cwd.origin path) (words path) f) : w.find keep path = some f := by
  unfold Files.find Tree.find
  rw [if_neg filled]
  exact leads_walk leads

theorem find_solid (found : w.find keep path = some (.there pos)) :
    w.tree.Solid pos ∨ keep = true ∧ ∃ ino target, pos.below = 0 ∧ w.tree.node pos.place = some ⟨ino,.link target⟩ :=
  (find_leads found).2.lands (w.stands.origin path).solid

theorem find_followed {f : Found} (found : w.find keep path = some f) (plain : ¬ w.IsLink f.pos.place) :
    w.find false path = some f := by
  cases keep with
  | false => exact found
  | true =>
    obtain ⟨filled,leads⟩ := find_leads found
    exact leads_find filled (leads.followed fun ino target link => plain ⟨ino,target,link⟩)

theorem find_alive (start : absolute path = true ∨ w.cwd.below = 0) (found : w.find keep path = some (.there pos)) :
    pos.below = 0 := by
  refine (find_leads found).2.alive ?_
  unfold Position.origin
  split
  next => rfl
  next relative => exact start.resolve_left relative

theorem inode_alive {n : Node} (alive : pos.below = 0) (found : w.tree.node pos.place = some n) :
    w.inode pos = some n.ino := by rw [Files.inode,if_pos alive,found,Option.map_some]

theorem untouched_relative : absolute "untouched".toList = false := by decide

theorem shown_named {name : Str} (shows : w.shown path = some name) (rooted : absolute name = true) :
    ∃ pos, w.find false path = some (.there pos) ∧ name = render pos.place ∧ w.Fits path pos.place := by
  have failed {left : Str} (never : shown (.failed left) = some name) : False := by
    rw [shown] at never
    split_ifs at never with short
    cases never
    rw [untouched_relative] at rooted
    cases rooted
  unfold Files.shown Files.realpath at shows
  dsimp only at shows
  by_cases start : absolute path = true ∨ w.cwd.below = 0
  case neg =>
    rw [if_neg start] at shows
    exact absurd shows failed
  rw [if_pos start] at shows
  cases found : w.find false path with
  | none =>
    rw [found] at shows
    exact absurd shows failed
  | some f =>
    rw [found] at shows
    cases f with
    | missing place => exact absurd shows failed
    | there pos =>
      dsimp only at shows
      split_ifs at shows with whole
      · rw [shown] at shows
        split_ifs at shows with short
        cases shows
        exact ⟨pos,rfl,rfl,short,start⟩
      · exact absurd shows failed

theorem traces_iff (path : Str) (object : Option Nat) : Traces w path object ↔ ∃ pos,
    w.find false path = some (.there pos) ∧ w.inode pos = object ∧ object.isSome = true ∧ w.Fits path pos.place := by
  constructor
  · rintro ⟨name,shows,rooted,known,pos',found',same⟩
    obtain ⟨pos,found,rfl,fits⟩ := shown_named shows rooted
    obtain ⟨n,there,_⟩ := (find_solid found).resolve_right fun never => by cases never.1
    have again : w.find true (render pos.place) = some (.there ⟨0,pos.place⟩) := find_render there w.cwd
    cases found'.symm.trans again
    have inode : w.inode ⟨0,pos.place⟩ = some n.ino := inode_alive rfl there
    exact ⟨pos,found,by rw [← same,inode,inode_alive (find_alive fits.2 found) there],known,fits⟩
  · rintro ⟨pos,found,rfl,known,short,start⟩
    obtain ⟨n,there,_⟩ := (find_solid found).resolve_right fun never => by cases never.1
    have alive := find_alive start found
    have again : w.inode ⟨0,pos.place⟩ = some n.ino := inode_alive rfl there
    refine ⟨render pos.place,?_,render_absolute _,known,⟨0,pos.place⟩,find_render there w.cwd,?_⟩
    · have whole : (render pos.place).length < PATH_MAX := short.trans (by decide)
      rw [Files.shown,Files.realpath,if_pos start,found]
      dsimp only
      rw [if_pos whole,Logger.shown,if_pos short]
    · rw [again,inode_alive alive there]

/-- A path under which something was found is shown with it unless that is a link. -/
theorem found_traced (found : w.find keep path = some (.there pos)) :
    Traces w path (w.inode pos) ↔ ¬ w.IsLink pos.place ∧ w.Fits path pos.place := by
  rw [traces_iff]
  by_cases link : w.IsLink pos.place
  · refine iff_of_false ?_ fun both => both.1 link
    rintro ⟨pos',found',same,known,fits⟩
    obtain ⟨ino,target,there⟩ := link
    obtain ⟨n,there',solid,_⟩ := (find_solid found').resolve_right fun never => by cases never.1
    rw [inode_alive (find_alive fits.2 found') there',inode_alive (find_alive fits.2 found) there] at same
    have kind := w.tree.kinds _ _ _ _ there' there (Option.some.inj same)
    exact solid target kind
  · have followed : w.find false path = some (.there pos) := find_followed found link
    rw [and_iff_right link]
    constructor
    · rintro ⟨pos',found',_,_,fits⟩
      cases found'.symm.trans followed
      exact fits
    · intro fits
      obtain ⟨n,there,_⟩ := (find_solid followed).resolve_right fun never => by cases never.1
      exact ⟨pos,followed,rfl,by rw [inode_alive (find_alive fits.2 followed) there]; rfl,fits⟩

theorem entry_leads {f : Found} (entry : w.entry path = some f) :
    path ≠ [] ∧ Leads w.tree true MAXSYMLINKS (w.cwd.origin path) (names path) f := by
  unfold Files.entry at entry
  split at entry
  next => cases entry
  next name last =>
    split_ifs at entry
    refine ⟨?_,walk_leads entry⟩
    rintro rfl
    cases last

theorem entry_find {f : Found} (entry : w.entry path = some f) (plain : slashed path = false) :
    w.find true path = some f := by
  obtain ⟨filled,leads⟩ := entry_leads entry
  refine leads_find filled ?_
  rw [words,plain]
  simpa using leads

theorem entry_traced {place : Place} {n : Node} (entry : w.entry path = some (.there ⟨0,place⟩))
    (found : w.tree.node place = some n) (dir : slashed path = true → n.kind = .dir) :
    Traces w path (some n.ino) ↔ ¬ w.IsLink place ∧ w.Fits path place := by
  have inode : w.inode ⟨0,place⟩ = some n.ino := inode_alive rfl found
  obtain ⟨filled,leads⟩ := entry_leads entry
  rw [← inode]
  cases slash : slashed path with
  | false => exact found_traced (entry_find entry slash)
  | true =>
    have kind := dir slash
    have plain : ∀ ino target, w.tree.node place ≠ some ⟨ino,.link target⟩ := by
      intro ino target link
      cases found.symm.trans link
      cases kind
    have here : w.find false path = some (.there ⟨0,place⟩) := by
      refine leads_find filled ?_
      rw [words,slash]
      exact (leads.followed plain).slash (by simp [Tree.isDir,found,kind])
    exact found_traced here

/-- Whether what open opens is shown: it has a place, is no link, and its name fits. -/
def Files.Opened (w : Files) (path : Str) (flags : BitVec 32) : Prop :=
  (has flags O_PATH = true ∨ has flags O_TMPFILE_BIT = false) ∧
    ∃ f, w.find (keeps flags) path = some f ∧ ¬ w.IsLink f.pos.place ∧ w.Fits path f.pos.place

theorem opens_traced {flags : BitVec 32} {w' : Files} {object : Option Nat} (opens : Opens w path flags w' object) :
    Traces w' path object ↔ w.Opened path flags := by
  have decided {pos : Position} (found : w.find (keeps flags) path = some (.there pos))
      (named : has flags O_PATH = true ∨ has flags O_TMPFILE_BIT = false) :
      Traces w path (w.inode pos) ↔ w.Opened path flags := by
    rw [found_traced found]
    constructor
    · exact fun plain => ⟨named,_,found,plain⟩
    · rintro ⟨_,f,found',plain⟩
      cases found'.symm.trans found
      exact plain
  cases opens with
  | handle only found dir => exact decided found (.inl only)
  | unnamed full temporary old directory found dir =>
    refine iff_of_false ?_ ?_
    · rintro ⟨_,_,_,never,_⟩
      cases never
    · rintro ⟨only | named,_⟩
      · rw [full] at only
        cases only
      · rw [temporary] at named
        cases named
  | existing full named old found solid dir => exact decided found (.inr named)
  | reused full named creates shared plain unslashed found file =>
    rw [← decided found (.inr named),inode_alive rfl file]
  | @created name place ino full named creates plain unslashed found room fresh =>
    have absent : ¬ w.IsLink (name::place) := by
      rintro ⟨_,_,link⟩
      rw [room.absent] at link
      cases link
    have there : (w.created room fresh).tree.node (name::place) = some ⟨ino,.file⟩ := Function.update_self _ _ _
    obtain ⟨filled,leads⟩ := find_leads (find_followed found absent)
    have same : ∀ p n, w.tree.node p = some n → n.kind ≠ .file → (w.created room fresh).tree.node p = some n := by
      intro p n known _
      refine (Function.update_of_ne ?_ _ _).trans known
      rintro rfl
      rw [room.absent] at known
      cases known
    have found' : (w.created room fresh).find false path = some (.there ⟨0,name::place⟩) :=
      leads_find filled (leads.kept_up same there (by simp))
    have file : ¬ (w.created room fresh).IsLink (name::place) := by
      rintro ⟨_,_,link⟩
      cases there.symm.trans link
    have shows := found_traced found'
    rw [inode_alive rfl there,and_iff_right file] at shows
    rw [shows]
    constructor
    · exact fun fits => ⟨.inr named,_,found,absent,fits⟩
    · rintro ⟨_,f,again,_,fits⟩
      cases again.symm.trans found
      exact fits

end Shown

/-- When the record is right. Of rename's paths, old is looked up in the files before and new in
those after the call. -/
def Traceable (w w' : Files) (call : Call) : Prop :=
  match call.opening,call with
  | some (path,flags),_ => w.Opened path flags
  | none,.remove (some path) =>
    ∃ place, w.entry path = some (.there ⟨0,place⟩) ∧ ¬ w.IsLink place ∧ w.Fits path place
  | none,.rename (some old) (some new) => ∃ place pos, w.entry old = some (.there ⟨0,place⟩) ∧ ¬ w.IsLink place ∧
      w.Fits old place ∧ w'.find false new = some (.there pos) ∧ w'.inode pos = w.inode ⟨0,place⟩ ∧
      w'.Fits new pos.place
  | none,_ => False

section Traced
variable {w w' : Files}

theorem opening_right {call : Call} {path : Str} {flags : BitVec 32} (opening : call.opening = some (path,flags))
    (object : Option Nat) : Right w call w' [(w',object)] ↔ Traces w' path object := by
  have moded {mode : Str} {path' : Str} (known : (fopenFlags mode).map (path',·) = some (path,flags)) : path' = path := by
    obtain ⟨flags',_,same⟩ := Option.map_eq_some_iff.mp known
    exact congrArg Prod.fst same
  cases call with
  | creat path' mode => cases path' <;> cases opening; exact reports_resolveLast .creat _ _ (Call.line (.creat _ _)) _
  | creat64 path' mode => cases path' <;> cases opening; exact reports_resolveLast .creat64 _ _ (Call.line (.creat64 _ _)) _
  | «open» path' flags' mode =>
    cases path' <;> cases opening
    exact reports_resolveLast .open _ _ (Call.line (.open _ _ _)) _
  | open64 path' flags' mode =>
    cases path' <;> cases opening
    exact reports_resolveLast .open64 _ _ (Call.line (.open64 _ _ _)) _
  | fopen path' mode =>
    cases path' with
    | none => cases opening
    | some path' =>
      obtain rfl := moded opening
      exact reports_resolveLast .fopen _ _ (Call.line (.fopen _ _)) _
  | fopen64 path' mode =>
    cases path' with
    | none => cases opening
    | some path' =>
      obtain rfl := moded opening
      exact reports_resolveLast .fopen64 _ _ (Call.line (.fopen64 _ _)) _
  | _ => cases opening

theorem remove_right {path : Str} {place : Place} {n : Node} (entry : w.entry path = some (.there ⟨0,place⟩))
    (found : w.tree.node place = some n) (dir : slashed path = true → n.kind = .dir) :
    Right w (.remove (some path)) w' [(w,some n.ino)] ↔ ¬ w.IsLink place ∧ w.Fits path place :=
  (reports_resolveFirst .remove _ _ (Call.line (.remove (some _))) _).trans (entry_traced entry found dir)

theorem rename_right {old new : Str} {place : Place} {n : Node} (entry : w.entry old = some (.there ⟨0,place⟩))
    (found : w.tree.node place = some n) (dir : slashed old = true → n.kind = .dir) :
    Right w (.rename (some old) (some new)) w' [(w,some n.ino),(w',some n.ino)] ↔
      Traceable w w' (.rename (some old) (some new)) := by
  have inode : w.inode ⟨0,place⟩ = some n.ino := inode_alive rfl found
  refine (reports_rename _ _ _ _).trans ?_
  rw [entry_traced entry found dir,traces_iff]
  constructor
  · rintro ⟨⟨plain,fits⟩,pos,found',same,_,fits'⟩
    exact ⟨place,pos,entry,plain,fits,found',same.trans inode.symm,fits'⟩
  · rintro ⟨place',pos,entry',plain,fits,found',same,fits'⟩
    cases entry'.symm.trans entry
    exact ⟨⟨plain,fits⟩,pos,found',same.trans inode,rfl,fits'⟩

/-- The paths in the record denote what the call acted on exactly if no link stands where it acts,
the names fit in the buffer, and rename's new is still the way to what was moved. -/
theorem right_iff_traceable {call : Call} {seen : List (Files × Option Nat)} (acts : Acts w call w' seen) :
    Right w call w' seen ↔ Traceable w w' call := by
  cases acts with
  | removed entry found gone dir =>
    refine (remove_right entry found dir).trans ⟨fun plain => ⟨_,entry,plain⟩,?_⟩
    rintro ⟨place,entry',plain⟩
    cases entry'.symm.trans entry
    exact plain
  | renamed entry found entry' arrives free dir replaced => exact rename_right entry found fun slash => dir (.inl slash)
  | unmoved entry found entry' found' same dir => exact rename_right entry found fun slash => dir (.inl slash)
  | opened opening opens =>
    rw [opening_right opening,opens_traced opens]
    unfold Traceable
    rw [opening]

section Moved
variable {old new : Str} {source place : Place} {name : Name} {m : Node}

theorem renamed_there (free : Movable w.tree source name place) (found : w.tree.node source = some m) :
    (w.renamed free).tree.node (name::place) = some m := (moved_below (name::place) []).trans found

theorem renamed_traceable (free : Movable w.tree source name place) (entry : w.entry old = some (.there ⟨0,source⟩))
    (found : w.tree.node source = some m) (solid : ∀ target, m.kind ≠ .link target)
    (again : (w.renamed free).find false new = some (.there ⟨0,name::place⟩)) :
    Traceable w (w.renamed free) (.rename (some old) (some new)) ↔
      w.Fits old source ∧ (w.renamed free).Fits new (name::place) := by
  have inode : (w.renamed free).inode ⟨0,name::place⟩ = w.inode ⟨0,source⟩ := by
    rw [inode_alive rfl (renamed_there free found),inode_alive rfl found]
  constructor
  · rintro ⟨place',pos,entry',_,short,found',_,short'⟩
    cases entry'.symm.trans entry
    cases found'.symm.trans again
    exact ⟨short,short'⟩
  · rintro ⟨short,short'⟩
    refine ⟨source,_,entry,?_,short,again,inode,short'⟩
    rintro ⟨ino,target,link⟩
    cases found.symm.trans link
    exact solid target rfl

/-- Under its canonical name what was moved is found. -/
theorem canonical_traceable (free : Movable w.tree source name place) (entry : w.entry old = some (.there ⟨0,source⟩))
    (found : w.tree.node source = some m) (solid : ∀ target, m.kind ≠ .link target) :
    Traceable w (w.renamed free) (.rename (some old) (some (render (name::place)))) ↔
      w.Fits old source ∧ (render (name::place)).length < BUFSIZE := by
  have there := renamed_there free found
  have unlinked : ¬ (w.renamed free).IsLink (name::place) := by
    rintro ⟨ino,target,link⟩
    cases there.symm.trans link
    exact solid target rfl
  have kept : (w.renamed free).find true (render (name::place)) = some (.there ⟨0,name::place⟩) := find_render there _
  have fits : (w.renamed free).Fits (render (name::place)) (name::place) ↔ (render (name::place)).length < BUFSIZE :=
    and_iff_left (.inl (render_absolute _))
  rw [renamed_traceable free entry found solid (find_followed kept unlinked),fits]

/-- Moving a file to a name of no directory or link changes no directory or link. -/
theorem file_moved (free : Movable w.tree source name place) (found : w.tree.node source = some m) (file : m.kind = .file)
    (other : ∀ r, w.tree.node (name::place) = some r → r.kind = .file) (p : Place) (n : Node)
    (known : w.tree.node p = some n) (kind : n.kind ≠ .file) : (w.renamed free).tree.node p = some n := by
  have left : ∀ r, w.tree.node source = some r → r.kind = .file := by
    intro r there
    cases found.symm.trans there
    exact file
  exact (moved_other (apart_below w.tree other known kind) (apart_below w.tree left known kind)).trans known

theorem file_cwd (free : Movable w.tree source name place) (found : w.tree.node source = some m) (file : m.kind = .file)
    (other : ∀ r, w.tree.node (name::place) = some r → r.kind = .file) : (w.renamed free).cwd = w.cwd := by
  obtain ⟨ino,dir⟩ := w.stands
  have left : ∀ r, w.tree.node source = some r → r.kind = .file := by
    intro r there
    cases found.symm.trans there
    exact file
  have replaced : w.cwd.place ≠ name::place := by
    intro here
    rw [here] at dir
    cases other _ dir
  change w.cwd.afterMove source (name::place) = w.cwd
  rw [Position.afterMove,under_none.mpr (apart_below w.tree left dir (by simp))]
  exact if_neg replaced

/-- For a file that is moved to a name of no directory or link, new is still the way to it. -/
theorem file_traceable {f : Found} (free : Movable w.tree source name place)
    (entry : w.entry old = some (.there ⟨0,source⟩)) (found : w.tree.node source = some m) (entry' : w.entry new = some f)
    (arrives : f.pos.place = name::place) (file : m.kind = .file) (plain : slashed new = false)
    (other : ∀ r, w.tree.node (name::place) = some r → r.kind = .file) :
    Traceable w (w.renamed free) (.rename (some old) (some new)) ↔ w.Fits old source ∧ w.Fits new (name::place) := by
  have finds := entry_find entry' plain
  have unlinked : ¬ w.IsLink f.pos.place := by
    rintro ⟨ino,target,link⟩
    cases other _ (arrives ▸ link)
  have alive : f.pos = ⟨0,name::place⟩ := by
    cases f with
    | missing above => exact congrArg (Position.mk 0) arrives
    | there pos =>
      suffices low : pos.below = 0 by
        obtain ⟨_,_⟩ := pos
        cases low
        exact congrArg (Position.mk 0) arrives
      obtain ⟨n,known,_,removed⟩ | ⟨_,_,_,low,_⟩ := find_solid finds
      · by_contra deep
        have kind := other n (arrives ▸ known)
        rw [removed deep] at kind
        cases kind
      · exact low
  have cwd := file_cwd free found file other
  have solid : ∀ target, m.kind ≠ .link target := by
    rw [file]
    exact fun target never => by cases never
  obtain ⟨filled,leads⟩ := find_leads (find_followed finds unlinked)
  have again : (w.renamed free).find false new = some (.there ⟨0,name::place⟩) := by
    refine leads_find filled ?_
    rw [cwd,← alive]
    exact leads.kept_up (file_moved free found file other) (arrives ▸ renamed_there free found) solid
  rw [renamed_traceable free entry found solid again,Files.Fits,Files.Fits,Files.Fits,cwd]

end Moved

end Traced

/-! A root directory with one entry. -/

def oneEntry (kind : Kind) : Tree where
  node place := if place = [] then some ⟨1,.dir⟩ else if place = [['a']] then some ⟨2,kind⟩ else none
  root := ⟨1,rfl⟩
  inside := by
    intro name place n found
    rw [if_neg (List.cons_ne_nil _ _)] at found
    split_ifs at found with here
    rw [(List.cons.inj here).2]
    exact ⟨1,rfl⟩
  proper := by
    intro name place n found
    rw [if_neg (List.cons_ne_nil _ _)] at found
    split_ifs at found with here
    rw [(List.cons.inj here).1]
    exact ⟨by decide,by decide,by decide,by decide⟩
  kinds := by
    intro p q m n first second same
    split_ifs at first second <;> cases first <;> cases second <;> first | rfl | cases same

theorem oneEntry_removable (kind : Kind) : Removable (oneEntry kind) [['a']] := ⟨by decide,fun _ => by simp [oneEntry]⟩

def oneFiles (kind : Kind) : Files := ⟨oneEntry kind,⟨0,[]⟩,⟨1,rfl⟩,fun _ _ _ => []⟩

theorem oneFiles_entry (kind : Kind) : (oneFiles kind).entry ['/','a'] = some (.there ⟨0,[['a']]⟩) := by
  cases kind <;> rfl

theorem right_iff_traceable_file : Right (oneFiles .file) (.remove (some ['/','a']))
    ((oneFiles .file).removed (oneEntry_removable .file)) [(oneFiles .file,some 2)] :=
  (right_iff_traceable (.removed (n := ⟨2,.file⟩) (oneFiles_entry .file) rfl (oneEntry_removable .file) (by decide))).mpr
    ⟨[['a']],oneFiles_entry .file,by rintro ⟨_,_,⟨⟩⟩,by decide,.inl rfl⟩

/-- A dangling link is removed, and the record says "untouched". -/
theorem removed_link_untouched : ¬ Right (oneFiles (.link ['b'])) (.remove (some ['/','a']))
    ((oneFiles (.link ['b'])).removed (oneEntry_removable (.link ['b']))) [(oneFiles (.link ['b']),some 2)] := by
  intro right
  have found : (oneFiles (.link ['b'])).tree.node [['a']] = some ⟨2,.link ['b']⟩ := rfl
  have plain := (remove_right (oneFiles_entry _) found (by decide)).mp right
  exact plain.1 ⟨2,['b'],rfl⟩

end Unixprog.Logger
