import Unixprog.Logger.Invisible

/-! The texts that a wrapper writes to the log: one record for each call that
returns, written by several calls of dprintf if the call transfers data. -/
namespace Unixprog.Logger
open Words Plays

def logged (play : List (Sigma Answer)) : List (Int × Str) := play.filterMap fun x =>
  match x.1 with
  | .dprintf fd text => some (fd,text)
  | _ => none

theorem logged_append (first second : List (Sigma Answer)) :
    logged (first ++ second) = logged first ++ logged second := List.filterMap_append

def Knows (n : Int) (s : Statics) : Prop := s.fd < 0 ∨ s.fd = n

def Tells (n : Int) : Sigma Answer → Prop
  | ⟨.logger,a⟩ => a.value = some n
  | _ => True

/-- With LOGGER at `n`, the texts `ts` go to descriptor `n` and no other text is written. -/
def Writes {α : Type} (n : Int) (p : Op α) (texts : α → List Str → Prop) : Prop :=
  Ensures (Knows n) (Tells n) p fun play value => ∃ ts, texts value ts ∧ logged play = ts.map (n,·)

section Rules
variable {α β : Type} {n : Int} {texts : α → List Str → Prop} {middle : β → List Str → Prop}

theorem Writes.weaken {other : α → List Str → Prop} {p : Op α} (writes : Writes n p texts)
    (implied : ∀ value ts, texts value ts → other value ts) : Writes n p other := by
  refine Ensures.weaken writes ?_
  rintro play value ⟨ts,told,same⟩
  exact ⟨ts,implied value ts told,same⟩

theorem writes_pure (value : α) (told : texts value []) : Writes n (pure value : Op α) texts :=
  ensures_pure value ⟨[],told,rfl⟩

theorem writes_bind {first : Op β} {next : β → Op α} (one : Writes n first middle)
    (two : ∀ value before, middle value before → Writes n (next value) fun result ts => texts result (before ++ ts)) :
    Writes n (first >>= next) texts := by
  refine ensures_bind one ?_
  rintro head value ⟨before,told,same⟩
  refine Ensures.weaken (two value before told) ?_
  rintro tail result ⟨ts,told,rest⟩
  refine ⟨before ++ ts,told,?_⟩
  rw [logged_append,same,rest,List.map_append]

theorem writes_query (q : Query) {next : Answer q → Op α} (silent : ∀ a, logged [⟨q,a⟩] = [])
    (rest : ∀ a, Tells n ⟨q,a⟩ → Writes n (next a) texts) : Writes n (query q >>= next) texts := by
  refine ensures_query q fun a told => Ensures.weaken (rest a told) ?_
  rintro play value ⟨ts,told,same⟩
  refine ⟨ts,told,?_⟩
  change logged ([⟨q,a⟩] ++ play) = _
  rw [logged_append,silent a,List.nil_append,same]

end Rules

abbrev Silent {α : Type} (n : Int) (p : Op α) : Prop := Writes n p fun _ ts => ts = []

theorem silent_then {α β : Type} {n : Int} {first : Op β} {next : β → Op α} {texts : α → List Str → Prop}
    (silent : Silent n first) (rest : ∀ value, Writes n (next value) texts) : Writes n (first >>= next) texts := by
  refine writes_bind silent ?_
  rintro value _ rfl
  exact rest value

theorem silent_getAbsPath (n : Int) (path : Path) : Silent n (getAbsPath path) := by
  refine writes_query _ (fun _ => rfl) ?_
  rintro ⟨value,errno⟩ _
  cases value with
  | path name =>
    simp only
    split
    · exact writes_pure name rfl
    · exact ensures_stop _
  | failed left =>
    simp only
    split
    · exact writes_pure _ rfl
    · exact ensures_stop _
  | fault => exact ensures_stop _

theorem silent_FD2name (n fd : Int) : Silent n (FD2name fd) := by
  refine writes_query _ (fun _ => rfl) fun pid _ => writes_query _ (fun _ => rfl) ?_
  rintro ⟨value,errno⟩ _
  cases value with
  | none => exact writes_pure _ rfl
  | some name =>
    simp only
    split
    · exact writes_pure name rfl
    · exact ensures_stop _

theorem silent_FILE2name (n : Int) (stream : Stream) : Silent n (FILE2name stream) :=
  writes_query _ (fun _ => rfl) fun fd _ => silent_FD2name n fd.value

theorem silent_callReal (n : Int) (call : Call) : Silent n (callReal call) :=
  writes_query _ (fun _ => rfl) fun reply _ => writes_pure reply.value rfl

theorem silent_lookup (n : Int) (f : Fn) : Silent n (find_fptr f >>= fun _ => CHECKER f) := by
  intro s play value after goes
  rw [lookup_run] at goes
  revert goes
  have fails (q : Query) : Silent n (ask q >>= fun _ => exit 1 : Op Unit) :=
    ensures_query q fun _ _ => ensures_stop _
  suffices silent : Silent n (lookup f s) from silent s play value after
  unfold lookup
  split
  next known => exact writes_pure () rfl
  next unknown =>
    refine writes_query _ (fun _ => rfl) fun handle _ => ?_
    split
    next opened =>
      refine writes_query _ (fun _ => rfl) fun symbol _ => ?_
      split
      next found => exact ensures_update _ (fun s knows => knows) ⟨[],rfl,rfl⟩
      next missing => exact fails _
    next closed => exact fails _

theorem getFD_ensures (n : Int) : Ensures (Knows n) (Tells n) getFD fun play fd => fd = n ∧ logged play = [] := by
  refine ensures_state fun s knows => ?_
  intro play value after goes fairly
  by_cases unset : s.fd < 0
  · rw [if_pos unset] at goes
    obtain ⟨⟨logger,errno⟩,rest,rfl,stored⟩ := plays_query.mp goes
    have told : logger = some n := (List.forall_mem_cons.mp fairly).1
    subst logger
    obtain ⟨rfl,same⟩ := plays_ret.mp stored
    cases same
    exact ⟨.inr rfl,rfl,rfl⟩
  · rw [if_neg unset] at goes
    obtain ⟨rfl,same⟩ := plays_ret.mp goes
    cases same
    exact ⟨knows,knows.resolve_left unset,rfl⟩

theorem writes_log (n : Int) (text : Str) : Writes n (log text) fun _ ts => ts = [text] := by
  refine ensures_bind (getFD_ensures n) ?_
  rintro before _ ⟨rfl,silent⟩
  refine ensures_query _ fun reply _ => ensures_pure () ⟨[text],rfl,?_⟩
  rw [logged_append,silent]
  rfl

theorem writes_preview (n : Int) (buf : Word) (count : Nat) (result : Int) (left i : Nat) :
    Writes n (preview buf count result left i) fun _ ts => ∃ seen : List Byte, ts = seen.map printed := by
  induction left generalizing i with
  | zero => exact writes_pure () ⟨[],rfl⟩
  | succ left ih =>
    unfold preview
    split
    next more =>
      refine writes_query _ (fun _ => rfl) ?_
      rintro ⟨value,errno⟩ _
      cases value with
      | none => exact ensures_stop _
      | some c =>
        refine writes_bind (writes_log n (printed c)) ?_
        rintro _ _ rfl
        refine (ih (i+1)).weaken ?_
        rintro _ _ ⟨seen,rfl⟩
        exact ⟨c::seen,rfl⟩
    next done => exact writes_pure () ⟨[],rfl⟩

/-! What a call that returns has written. -/

def Call.fn : Call → Fn
  | .chmod .. => .chmod
  | .chown .. => .chown
  | .close .. => .close
  | .creat .. => .creat
  | .creat64 .. => .creat64
  | .fclose .. => .fclose
  | .fopen .. => .fopen
  | .fopen64 .. => .fopen64
  | .fread .. => .fread
  | .fwrite .. => .fwrite
  | .open .. => .open
  | .open64 .. => .open64
  | .read .. => .read
  | .remove .. => .remove
  | .rename .. => .rename
  | .tmpfile => .tmpfile
  | .tmpfile64 => .tmpfile64
  | .write .. => .write

def Call.transfers : Call → Bool
  | .fread .. => true
  | .fwrite .. => true
  | .read .. => true
  | .write .. => true
  | _ => false

def Call.shown (result : Int) : Call → Str
  | .fopen .. => pointer result
  | .fopen64 .. => pointer result
  | .tmpfile => pointer result
  | .tmpfile64 => pointer result
  | _ => decimal result

/-- The texts together are the record of the call. A call that transfers data writes
it in several texts, any other in one. -/
structure Recorded (call : Call) (result : Int) (ts : List Str) : Prop where
  record : ∃ args, ts.flatten = record call.fn args (call.shown result)
  parts : if call.transfers then 2 ≤ ts.length else ts.length = 1

theorem recorded_once {call : Call} (calm : call.transfers = false) (result : Int) (args : List Str) :
    Recorded call result [record call.fn args (call.shown result)] :=
  ⟨⟨args,by simp⟩,by simp [calm]⟩

theorem recorded_named {call : Call} (moves : call.transfers = true) (result : Int) (name : Str) (seen : List Byte)
    (nbyte : Nat) : Recorded call result
      ((s!"[logger] {call.fn.name}(".toList ++ quoted name ++ ", \"".toList)::seen.map printed ++
        ["\", ".toList ++ decimal nbyte ++ ") = ".toList ++ call.shown result ++ "\n".toList]) := by
  refine ⟨⟨[quoted name,quoted (seen.map printed).flatten,decimal nbyte],?_⟩,by simp [moves]⟩
  have opening : ", \"".toList = ", ".toList ++ "\"".toList := rfl
  have closing : "\", ".toList = "\"".toList ++ ", ".toList := rfl
  simp only [record,quoted,opening,closing,List.intercalate,List.intersperse,List.flatten_cons,List.flatten_nil,
    List.flatten_append,List.cons_append,List.append_nil,List.append_assoc]

theorem recorded_streamed {call : Call} (moves : call.transfers = true) (result : Int) (name : Str) (seen : List Byte)
    (size nmemb : Nat) : Recorded call result
      (s!"[logger] {call.fn.name}(\"".toList::seen.map printed ++
        ["\", ".toList ++ decimal size ++ ", ".toList ++ decimal nmemb ++ ", ".toList ++ quoted name ++
          ") = ".toList ++ call.shown result ++ "\n".toList]) := by
  refine ⟨⟨[quoted (seen.map printed).flatten,decimal size,decimal nmemb,quoted name],?_⟩,by simp [moves]⟩
  have opening : s!"[logger] {call.fn.name}(\"".toList = s!"[logger] {call.fn.name}(".toList ++ "\"".toList := by
    simp only [String.toList_append,List.append_assoc]
    rfl
  have closing : "\", ".toList = "\"".toList ++ ", ".toList := rfl
  simp only [record,quoted,opening,closing,List.intercalate,List.intersperse,List.flatten_cons,List.flatten_nil,
    List.flatten_append,List.cons_append,List.append_nil,List.append_assoc]

section Wrappers
variable (n : Int)

theorem lookup_then (f : Fn) {rest : Op Int} {texts : Int → List Str → Prop} (writes : Writes n rest texts) :
    Writes n (find_fptr f >>= fun _ => CHECKER f >>= fun _ => rest) texts := by
  rw [← then_assoc]
  exact silent_then (silent_lookup n f) fun _ => writes

theorem writes_last (text : Str) (result : Int) :
    Writes n (log text >>= fun _ => pure result : Op Int) fun value ts => value = result ∧ ts = [text] := by
  refine writes_bind (writes_log n text) ?_
  rintro _ _ rfl
  exact writes_pure result ⟨rfl,rfl⟩

theorem writes_resolveFirst (f : Fn) (path : Path) (real : Call) (text : Str → Int → Str) :
    Writes n (resolveFirst f path real text) fun value ts => ∃ r_path, ts = [text r_path value] := by
  refine lookup_then n f (silent_then (silent_getAbsPath n path) fun r_path => ?_)
  refine silent_then (silent_callReal n real) fun result => (writes_last n _ result).weaken ?_
  rintro _ _ ⟨rfl,rfl⟩
  exact ⟨r_path,rfl⟩

theorem writes_resolveLast (f : Fn) (path : Path) (real : Call) (text : Str → Int → Str) :
    Writes n (resolveLast f path real text) fun value ts => ∃ r_path, ts = [text r_path value] := by
  refine lookup_then n f (silent_then (silent_callReal n real) fun result => ?_)
  refine silent_then (silent_getAbsPath n path) fun r_path => (writes_last n _ result).weaken ?_
  rintro _ _ ⟨rfl,rfl⟩
  exact ⟨r_path,rfl⟩

theorem writes_transfer (f : Fn) {name : Op Str} (silent : Silent n name) (buf : Word) (count : Nat) (real : Call)
    (head : Str → Str) (tail : Str → Int → Str) :
    Writes n (transfer f name buf count real head tail) fun value ts =>
      ∃ (name : Str) (seen : List Byte), ts = head name::seen.map printed ++ [tail name value] := by
  refine lookup_then n f (silent_then (silent_callReal n real) fun result => silent_then silent fun name => ?_)
  refine writes_bind (writes_log n (head name)) ?_
  rintro _ _ rfl
  refine writes_bind (writes_preview n buf count result 32 0) ?_
  rintro _ _ ⟨seen,rfl⟩
  refine (writes_last n _ result).weaken ?_
  rintro _ _ ⟨rfl,rfl⟩
  exact ⟨name,seen,rfl⟩

theorem writes_temporary (f : Fn) (real : Call) :
    Writes n (temporary f real) fun value ts => ts = [record f [] (pointer value)] := by
  refine lookup_then n f (silent_then (silent_callReal n real) fun result => (writes_last n _ result).weaken ?_)
  rintro _ _ ⟨rfl,rfl⟩
  rfl

theorem writes_rename (old new : Path) : Writes n (Logger.rename old new) (Recorded (.rename old new)) := by
  refine lookup_then n .rename (silent_then (silent_getAbsPath n old) fun r_old => ?_)
  refine silent_then (silent_callReal n _) fun result => silent_then (silent_getAbsPath n new) fun r_new => ?_
  refine (writes_last n _ result).weaken ?_
  rintro _ _ ⟨rfl,rfl⟩
  exact recorded_once rfl _ _

theorem writes_close (fildes : Int) : Writes n (Logger.close fildes) (Recorded (.close fildes)) := by
  refine lookup_then n .close (silent_then (silent_FD2name n fildes) fun name => ?_)
  have ending (result : Int) : Writes n (log (record .close [quoted name] (decimal result)) >>= fun _ => pure result)
      (Recorded (.close fildes)) := by
    refine (writes_last n _ result).weaken ?_
    rintro _ _ ⟨rfl,rfl⟩
    exact recorded_once rfl _ _
  split
  · exact silent_then (silent_callReal n _) ending
  · exact silent_then (writes_pure 0 rfl) ending

theorem writes_fclose (stream : Stream) : Writes n (Logger.fclose stream) (Recorded (.fclose stream)) := by
  refine lookup_then n .fclose (silent_then (silent_FILE2name n stream) fun name => ?_)
  have ending (result : Int) : Writes n (log (record .fclose [quoted name] (decimal result)) >>= fun _ => pure result)
      (Recorded (.fclose stream)) := by
    refine (writes_last n _ result).weaken ?_
    rintro _ _ ⟨rfl,rfl⟩
    exact recorded_once rfl _ _
  split
  · exact silent_then (silent_callReal n _) ending
  · exact silent_then (writes_pure 0 rfl) ending

/-- A call that returns has written its record, to descriptor `n` only. -/
theorem perform_writes (call : Call) : Writes n call.perform (Recorded call) := by
  cases call with
  | chmod path mode =>
    refine (writes_resolveFirst n _ _ _ _).weaken ?_
    rintro value _ ⟨r_path,rfl⟩
    exact recorded_once rfl value _
  | chown path owner group =>
    refine (writes_resolveFirst n _ _ _ _).weaken ?_
    rintro value _ ⟨r_path,rfl⟩
    exact recorded_once rfl value _
  | remove pathname =>
    refine (writes_resolveFirst n _ _ _ _).weaken ?_
    rintro value _ ⟨r_path,rfl⟩
    exact recorded_once rfl value _
  | close fildes => exact writes_close n fildes
  | fclose stream => exact writes_fclose n stream
  | rename old new => exact writes_rename n old new
  | fread ptr size nmemb stream =>
    refine (writes_transfer n _ (silent_FILE2name n stream) _ _ _ _ _).weaken ?_
    rintro value _ ⟨name,seen,rfl⟩
    exact recorded_streamed rfl value name seen size nmemb
  | fwrite ptr size nmemb stream =>
    refine (writes_transfer n _ (silent_FILE2name n stream) _ _ _ _ _).weaken ?_
    rintro value _ ⟨name,seen,rfl⟩
    exact recorded_streamed rfl value name seen size nmemb
  | read fildes buf nbyte =>
    refine (writes_transfer n _ (silent_FD2name n fildes) _ _ _ _ _).weaken ?_
    rintro value _ ⟨name,seen,rfl⟩
    exact recorded_named rfl value name seen nbyte
  | write fildes buf nbyte =>
    refine (writes_transfer n _ (silent_FD2name n fildes) _ _ _ _ _).weaken ?_
    rintro value _ ⟨name,seen,rfl⟩
    exact recorded_named rfl value name seen nbyte
  | tmpfile =>
    refine (writes_temporary n _ _).weaken ?_
    rintro value _ rfl
    exact recorded_once rfl value _
  | tmpfile64 =>
    refine (writes_temporary n _ _).weaken ?_
    rintro value _ rfl
    exact recorded_once rfl value _
  | _ =>
    refine (writes_resolveLast n _ _ _ _).weaken ?_
    rintro value _ ⟨r_path,rfl⟩
    exact recorded_once rfl value _

end Wrappers

end Unixprog.Logger
