import Unixprog.Library.Histories
import Unixprog.Logger.Records

/-! The static variables over whole sessions: how the logger finds the underlying functions
and its descriptor, each of them once. -/
namespace Unixprog.Logger
open Words Plays

/-- `dlsym` has found the function. -/
def Bound (history : History Answer) (f : Fn) : Prop := ∃ a, ⟨.dlsym f,a⟩ ∈ history ∧ a.value = true

def reading : Sigma Answer → Option Int
  | ⟨.logger,a⟩ => a.value
  | _ => none

/-- The last number that LOGGER was read as. -/
def lastReading (history : History Answer) : Option Int := (history.filterMap reading).getLast?

/-- What the logger may do after a history. A function is looked up until it is found and
called only when it is. LOGGER is read until it gives a descriptor, and texts go to the
descriptor that it gave, apart from the complaints about a lookup that has just failed. -/
def Allowed (history : History Answer) : Query → Prop
  | .dlopen => ∃ f, ¬ Bound history f
  | .dlsym f => ¬ Bound history f ∧ ∃ past opened, history = past ++ [⟨.dlopen,opened⟩] ∧ opened.value = true
  | .real call => Bound history call.fn
  | .logger => ∀ n, lastReading history = some n → n < 0
  | .dprintf fd _ => lastReading history = some fd ∨
      fd = 2 ∧ ∃ past opened, history = past ++ [⟨.dlopen,opened⟩] ∧ opened.value = false
  | .fprintf _ => ∃ past f symbol, history = past ++ [⟨.dlsym f,symbol⟩] ∧ symbol.value = false
  | _ => True

structure Agrees (history : History Answer) (s : Statics) : Prop where
  found : ∀ f, f ∈ s.found ↔ Bound history f
  fd : s.fd = (lastReading history).getD (-1)

structure Ready (f : Fn) (history : History Answer) (s : Statics) : Prop extends Agrees history s where
  bound : Bound history f

abbrev Careful {α : Type} (pre : History Answer → Statics → Prop) (p : Op α)
    (post : α → History Answer → Statics → Prop) : Prop := Minds Allowed pre p post

theorem bound_more {history : History Answer} {f : Fn} (bound : Bound history f) (x : Sigma Answer) :
    Bound (history ++ [x]) f := by
  obtain ⟨a,member,found⟩ := bound
  exact ⟨a,List.mem_append_left _ member,found⟩

theorem bound_last {history : History Answer} {f : Fn} {x : Sigma Answer} :
    Bound (history ++ [x]) f ↔ Bound history f ∨ ∃ a, x = ⟨.dlsym f,a⟩ ∧ a.value = true := by
  constructor
  · rintro ⟨a,member,found⟩
    obtain before | last := List.mem_append.mp member
    · exact .inl ⟨a,before,found⟩
    · exact .inr ⟨a,(List.mem_singleton.mp last).symm,found⟩
  · rintro (bound | ⟨a,rfl,found⟩)
    · exact bound_more bound x
    · exact ⟨a,List.mem_append_right _ (List.mem_singleton_self _),found⟩

theorem lastReading_last (history : History Answer) (x : Sigma Answer) :
    lastReading (history ++ [x]) = (reading x).or (lastReading history) := by
  unfold lastReading
  cases read : reading x with
  | none => simp [read]
  | some n => simp [read]

/-- An answer that tells nothing about the static variables. -/
def Neutral : Query → Prop
  | .dlsym _ => False
  | .logger => False
  | _ => True

theorem agrees_neutral {history : History Answer} {s : Statics} {q : Query} (neutral : Neutral q) (a : Answer q)
    (agrees : Agrees history s) : Agrees (history ++ [⟨q,a⟩]) s := by
  have unread : reading ⟨q,a⟩ = none := by
    cases q <;> first | rfl | exact absurd neutral id
  constructor
  case found =>
    intro f
    rw [agrees.found,bound_last,or_iff_left]
    rintro ⟨symbol,same,_⟩
    cases same
    exact neutral
  case fd => rw [lastReading_last,unread,Option.none_or,agrees.fd]

theorem careful_ask {α : Type} {f : Fn} {q : Query} {next : Answer q → Op α} {post : α → History Answer → Statics → Prop}
    (neutral : Neutral q) (allows : ∀ history s, Ready f history s → Allowed history q)
    (rest : ∀ a, Careful (Ready f) (next a) post) : Careful (Ready f) (ask q >>= next) post := by
  refine minds_query q allows fun a => (rest a).weaken ?_ fun _ _ _ holds => holds
  rintro _ s ⟨past,rfl,ready⟩
  exact ⟨agrees_neutral neutral a ready.toAgrees,bound_more ready.bound _⟩

section Helpers
variable {f : Fn}

theorem careful_callReal (call : Call) : Careful (Ready call.fn) (callReal call) fun _ => Ready call.fn :=
  careful_ask trivial (fun _ _ ready => ready.bound) fun _ => minds_pure _ fun _ _ ready => ready

theorem careful_getAbsPath (path : Path) : Careful (Ready f) (getAbsPath path) fun _ => Ready f := by
  refine careful_ask trivial (fun _ _ _ => trivial) ?_
  rintro ⟨value,errno⟩
  cases value with
  | path name => exact minds_ite _ (fun _ => minds_pure _ fun _ _ ready => ready) fun _ => minds_stop _
  | failed left => exact minds_ite _ (fun _ => minds_pure _ fun _ _ ready => ready) fun _ => minds_stop _
  | fault => exact minds_stop _

theorem careful_FD2name (fd : Int) : Careful (Ready f) (FD2name fd) fun _ => Ready f := by
  refine careful_ask trivial (fun _ _ _ => trivial) fun pid => ?_
  refine careful_ask trivial (fun _ _ _ => trivial) ?_
  rintro ⟨value,errno⟩
  cases value with
  | none => exact minds_pure _ fun _ _ ready => ready
  | some name => exact minds_ite _ (fun _ => minds_pure _ fun _ _ ready => ready) fun _ => minds_stop _

theorem careful_FILE2name (stream : Stream) : Careful (Ready f) (FILE2name stream) fun _ => Ready f :=
  careful_ask trivial (fun _ _ _ => trivial) fun fd => careful_FD2name fd.value

theorem careful_getFD : Careful (Ready f) getFD fun fd history s => Ready f history s ∧ lastReading history = some fd := by
  refine minds_state fun s => minds_ite _ (fun unknown => ?_) fun known => ?_
  · refine minds_query Query.logger ?_ fun a => ?_
    · rintro history _ ⟨ready,rfl⟩ n read
      have fd := ready.fd
      rw [read,Option.getD_some] at fd
      rwa [← fd]
    · cases value : a.value with
      | none => exact minds_stop _
      | some fd =>
        refine minds_bind (minds_update _ ?_) fun _ => minds_pure fd fun _ _ holds => holds
        rintro _ t ⟨past,rfl,ready,_⟩
        have read : lastReading (past ++ [⟨.logger,a⟩]) = some fd := by
          rw [lastReading_last,show reading ⟨.logger,a⟩ = a.value from rfl,value,Option.some_or]
        refine ⟨⟨⟨fun g => ?_,by rw [read,Option.getD_some]⟩,bound_more ready.bound _⟩,read⟩
        rw [bound_last,or_iff_left]
        · exact ready.found g
        · rintro ⟨symbol,same,_⟩
          cases same
  · refine minds_pure _ ?_
    rintro history _ ⟨ready,rfl⟩
    refine ⟨ready,?_⟩
    have fd := ready.fd
    cases read : lastReading history with
    | none =>
      rw [read,Option.getD_none] at fd
      omega
    | some n =>
      rw [read,Option.getD_some] at fd
      rw [fd]

theorem careful_log (text : Str) : Careful (Ready f) (log text) fun _ => Ready f := by
  refine minds_bind careful_getFD fun fd => ?_
  refine minds_query (Query.dprintf fd text) (fun history s holds => .inl holds.2) fun a => minds_pure _ ?_
  rintro _ s ⟨past,rfl,ready,_⟩
  have neutral : Neutral (.dprintf fd text) := trivial
  exact ⟨agrees_neutral neutral a ready.toAgrees,bound_more ready.bound _⟩

theorem careful_preview (buf : Word) (count : Nat) (result : Int) (left i : Nat) :
    Careful (Ready f) (preview buf count result left i) fun _ => Ready f := by
  induction left generalizing i with
  | zero => exact minds_pure _ fun _ _ ready => ready
  | succ left ih =>
    refine minds_ite _ (fun _ => ?_) fun _ => minds_pure _ fun _ _ ready => ready
    refine careful_ask trivial (fun _ _ _ => trivial) ?_
    rintro ⟨value,errno⟩
    cases value with
    | none => exact minds_stop _
    | some c => exact minds_bind (careful_log _) fun _ => ih (i+1)

/-- However the lookup starts, the function is found when it is over. -/
theorem careful_lookup (f : Fn) : Careful Agrees (find_fptr f >>= fun _ => CHECKER f) fun _ => Ready f := by
  refine minds_cases (lookup f) (lookup_run f) fun s => ?_
  unfold lookup
  refine minds_ite _ (fun known => minds_pure _ ?_) fun unknown => ?_
  · rintro history _ ⟨agrees,rfl⟩
    exact ⟨agrees,(agrees.found f).mp known⟩
  · have missing {history : History Answer} {t : Statics} (holds : Agrees history t ∧ t = s) : ¬ Bound history f := by
      obtain ⟨agrees,rfl⟩ := holds
      exact fun bound => unknown ((agrees.found f).mpr bound)
    refine minds_query Query.dlopen (fun history t holds => ⟨f,missing holds⟩) fun handle => minds_ite _ (fun opened => ?_) fun closed => ?_
    · refine minds_query (Query.dlsym f) ?_ fun symbol => minds_ite _ (fun found => minds_update _ ?_) fun absent => ?_
      · rintro _ t ⟨past,rfl,holds⟩
        refine ⟨fun bound => missing holds ?_,past,handle,rfl,opened⟩
        exact (bound_last.mp bound).resolve_right fun ⟨a,same,_⟩ => by cases same
      · rintro _ t ⟨_,rfl,past,rfl,agrees,_⟩
        have neutral : Neutral .dlopen := trivial
        have opening : Agrees (past ++ [⟨.dlopen,handle⟩]) t := agrees_neutral neutral handle agrees
        have bound : Bound ((past ++ [⟨.dlopen,handle⟩]) ++ [⟨.dlsym f,symbol⟩]) f := bound_last.mpr (.inr ⟨symbol,rfl,found⟩)
        refine ⟨⟨fun g => ?_,?_⟩,bound⟩
        · rw [bound_last,List.mem_cons,opening.found]
          constructor
          · rintro (rfl | before)
            · exact .inr ⟨symbol,rfl,found⟩
            · exact .inl before
          · rintro (before | ⟨a,same,_⟩)
            · exact .inr before
            · cases same
              exact .inl rfl
        · rw [lastReading_last]
          exact opening.fd
      · refine minds_query (Query.fprintf _) ?_ fun _ => minds_stop _
        rintro _ t ⟨past,rfl,_⟩
        exact ⟨past,f,symbol,rfl,by simpa using absent⟩
    · refine minds_query (Query.dprintf 2 _) ?_ fun _ => minds_stop _
      rintro _ t ⟨past,rfl,_⟩
      exact .inr ⟨rfl,past,handle,rfl,by simpa using closed⟩

end Helpers

/-! The wrappers. -/

theorem careful_found {f : Fn} {rest : Op Int} (careful : Careful (Ready f) rest fun _ => Ready f) :
    Careful Agrees (find_fptr f >>= fun _ => CHECKER f >>= fun _ => rest) fun _ => Agrees := by
  rw [← then_assoc]
  exact minds_bind (careful_lookup f) fun _ => careful.weaken (fun _ _ ready => ready) fun _ _ _ ready => ready.toAgrees

theorem careful_logged {f : Fn} (text : Str) (result : Int) :
    Careful (Ready f) (log text >>= fun _ => pure result : Op Int) fun _ => Ready f :=
  minds_bind (careful_log text) fun _ => minds_pure result fun _ _ ready => ready

theorem careful_resolveFirst (path : Path) (real : Call) (text : Str → Int → Str) :
    Careful Agrees (resolveFirst real.fn path real text) fun _ => Agrees :=
  careful_found (minds_bind (careful_getAbsPath path) fun _ => minds_bind (careful_callReal real) fun _ => careful_logged _ _)

theorem careful_resolveLast (path : Path) (real : Call) (text : Str → Int → Str) :
    Careful Agrees (resolveLast real.fn path real text) fun _ => Agrees :=
  careful_found (minds_bind (careful_callReal real) fun _ => minds_bind (careful_getAbsPath path) fun _ => careful_logged _ _)

theorem careful_transfer (real : Call) {name : Op Str} (naming : Careful (Ready real.fn) name fun _ => Ready real.fn)
    (buf : Word) (count : Nat) (head : Str → Str) (tail : Str → Int → Str) :
    Careful Agrees (transfer real.fn name buf count real head tail) fun _ => Agrees :=
  careful_found (minds_bind (careful_callReal real) fun result => minds_bind naming fun _ => minds_bind (careful_log _) fun _ =>
    minds_bind (careful_preview buf count result 32 0) fun _ => careful_logged _ _)

theorem careful_temporary (real : Call) : Careful Agrees (temporary real.fn real) fun _ => Agrees :=
  careful_found (minds_bind (careful_callReal real) fun _ => careful_logged _ _)

theorem careful_rename (old new : Path) : Careful Agrees (Logger.rename old new) fun _ => Agrees :=
  careful_found (minds_bind (careful_getAbsPath old) fun _ => minds_bind (careful_callReal (.rename old new)) fun _ =>
    minds_bind (careful_getAbsPath new) fun _ => careful_logged _ _)

theorem careful_close (fildes : Int) : Careful Agrees (Logger.close fildes) fun _ => Agrees := by
  refine careful_found (f := .close) (minds_bind (careful_FD2name fildes) fun name => ?_)
  by_cases other : fildes ≠ 2
  · simp only [if_pos other]
    exact minds_bind (careful_callReal (.close fildes)) fun _ => careful_logged _ _
  · simp only [if_neg other]
    exact careful_logged _ _

theorem careful_fclose (stream : Stream) : Careful Agrees (Logger.fclose stream) fun _ => Agrees := by
  refine careful_found (f := .fclose) (minds_bind (careful_FILE2name stream) fun name => ?_)
  by_cases other : stream ≠ .stderr
  · simp only [if_pos other]
    exact minds_bind (careful_callReal (.fclose stream)) fun _ => careful_logged _ _
  · simp only [if_neg other]
    exact careful_logged _ _

theorem careful_perform (call : Call) : Careful Agrees call.perform fun _ => Agrees := by
  cases call with
  | chmod path mode => exact careful_resolveFirst path (.chmod path mode) _
  | chown path owner group => exact careful_resolveFirst path (.chown path owner group) _
  | close fildes => exact careful_close fildes
  | creat path mode => exact careful_resolveLast path (.creat path mode) _
  | creat64 path mode => exact careful_resolveLast path (.creat64 path mode) _
  | fclose stream => exact careful_fclose stream
  | fopen pathname mode => exact careful_resolveLast pathname (.fopen pathname mode) _
  | fopen64 pathname mode => exact careful_resolveLast pathname (.fopen64 pathname mode) _
  | fread ptr size nmemb stream =>
    exact careful_transfer (.fread ptr size nmemb stream) (careful_FILE2name stream) ptr nmemb _ _
  | fwrite ptr size nmemb stream =>
    exact careful_transfer (.fwrite ptr size nmemb stream) (careful_FILE2name stream) ptr nmemb _ _
  | «open» pathname flags mode => exact careful_resolveLast pathname (.open pathname flags (modeOf flags mode)) _
  | open64 pathname flags mode => exact careful_resolveLast pathname (.open64 pathname flags (modeOf flags mode)) _
  | read fildes buf nbyte => exact careful_transfer (.read fildes buf nbyte) (careful_FD2name fildes) buf nbyte _ _
  | remove pathname => exact careful_resolveFirst pathname (.remove pathname) _
  | rename old new => exact careful_rename old new
  | tmpfile => exact careful_temporary .tmpfile
  | tmpfile64 => exact careful_temporary .tmpfile64
  | write fildes buf nbyte => exact careful_transfer (.write fildes buf nbyte) (careful_FD2name fildes) buf nbyte _ _

theorem session_agrees {statics : Statics} {session : List Interaction} (made : Session statics session)
    (history : History Answer) (agrees : Agrees history statics) :
    Lawful Allowed history (session.flatMap Interaction.play) := by
  induction made generalizing history with
  | nil statics => exact lawful_nil history
  | returned statics errno call play result after rest goes later ih =>
    obtain ⟨lawful,ends⟩ := careful_perform call history statics agrees play _ goes
    exact lawful_append.mpr ⟨lawful,ih _ (ends result after rfl)⟩
  | stopped statics errno call play why goes =>
    rw [List.flatMap_singleton]
    exact (careful_perform call history statics agrees play _ goes).1

theorem agrees_initial : Agrees [] Statics.initial := ⟨fun f => by simp [Statics.initial,Bound],rfl⟩

theorem lastReading_mem {history : History Answer} {n : Int} (read : lastReading history = some n) :
    ∃ a, ⟨.logger,a⟩ ∈ history ∧ a.value = some n := by
  obtain ⟨⟨q,a⟩,member,told⟩ := List.mem_filterMap.mp (List.mem_of_getLast? read)
  cases q with
  | logger => exact ⟨a,member,told⟩
  | _ => cases told

/-- In every session of a process, whatever is answered: a function is looked up until it
is found and no more, no underlying function is called before it is found, LOGGER is read
until it gives a descriptor and no more, and the log goes to the descriptor it gave. -/
theorem session_lawful (session : List Interaction) (made : Session Statics.initial session) :
    Lawful Allowed [] (session.flatMap Interaction.play) := session_agrees made [] agrees_initial

theorem session_lawful_remove : Lawful Allowed [] (firstCall sampleAnswer (.remove "f".toList)).play := by
  have lawful := session_lawful _ (firstCall_session sampleAnswer (.remove "f".toList))
  rwa [List.flatMap_singleton] at lawful

end Unixprog.Logger
