import Unixprog.Logger.Wrappers

/-! What the traced program can see of the logger: whether the underlying function
is called once, what is returned, and what errno holds afterwards. -/
namespace Unixprog.Logger
open Words Plays

/-- The calls that logger.c makes for itself. -/
def Own (q : Query) : Prop := ∀ call, q ≠ .real call

def Benign : Sigma Answer → Prop
  | ⟨.dlopen,a⟩ => a.value = true
  | ⟨.dlsym _,a⟩ => a.value = true
  | ⟨.logger,a⟩ => a.value.isSome
  | ⟨.realpath _,a⟩ => match a.value with
    | .path name => name.length < BUFSIZE
    | .failed left => left.length < BUFSIZE
    | .fault => False
  | ⟨.readlink _,a⟩ => ∀ name, a.value = some name → name.length < BUFSIZE
  | ⟨.peek _,a⟩ => a.value.isSome
  | _ => True

/-! The helpers ask only their own queries and return after benign answers. -/

abbrev Helper {α : Type} (p : Op α) : Prop := Tame Own Benign (fun _ => True) p

theorem harsh_undefined {α : Type} : Harsh Own (undefined : Op α) := harsh_stop Stop.undefined

theorem harsh_exit {α : Type} (code : Nat) : Harsh Own (exit code : Op α) := harsh_stop (Stop.exited code)

theorem helper_pure {α : Type} (value : α) : Helper (pure value : Op α) := tame_pure value trivial

theorem helper_getAbsPath (path : Path) : Helper (getAbsPath path) := by
  refine tame_query _ _ (by simp [Own]) ?_ ?_
  all_goals
    rintro ⟨value,errno⟩ answer
    cases value with
    | path name =>
      simp only [Benign] at answer
      simp only [answer,if_true,if_false]
      first | exact helper_pure name | exact harsh_undefined
    | failed left =>
      simp only [Benign] at answer
      simp only [answer,if_true,if_false]
      first | exact helper_pure _ | exact harsh_undefined
    | fault => first | exact harsh_undefined | exact absurd answer id

theorem helper_getFD : Helper getFD := by
  refine tame_bind tame_state ?_
  intro s _
  split
  next unknown =>
    refine tame_query _ _ (by simp [Own]) ?_ ?_
    · rintro ⟨value,errno⟩ answer
      cases value with
      | none => cases answer
      | some fd => exact tame_bind (tame_update _) fun _ _ => helper_pure fd
    · rintro ⟨value,errno⟩ answer
      cases value with
      | none => exact harsh_undefined
      | some fd => exact absurd rfl answer
  next known => exact helper_pure _

theorem helper_FD2name (fd : Int) : Helper (FD2name fd) := by
  refine tame_query _ _ (by simp [Own]) ?_ fun a other => absurd trivial other
  intro pid _
  refine tame_query _ _ (by simp [Own]) ?_ ?_
  · rintro ⟨value,errno⟩ answer
    cases value with
    | none => exact helper_pure _
    | some name =>
      simp only [if_pos (answer name rfl)]
      exact helper_pure name
  · rintro ⟨value,errno⟩ answer
    cases value with
    | none => exact absurd (fun name same => by cases same) answer
    | some name =>
      have long : ¬ name.length < BUFSIZE := by
        intro short
        refine answer fun other same => ?_
        cases same
        exact short
      simp only [if_neg long]
      exact harsh_undefined

theorem helper_FILE2name (stream : Stream) : Helper (FILE2name stream) :=
  tame_query _ _ (by simp [Own]) (fun fd _ => helper_FD2name fd.value) fun _ other => absurd trivial other

theorem helper_log (text : Str) : Helper (log text) :=
  tame_bind helper_getFD fun fd _ =>
    tame_query _ _ (by simp [Own]) (fun _ _ => helper_pure ()) fun _ other => absurd trivial other

theorem helper_preview (buf : Word) (count : Nat) (result : Int) (left i : Nat) :
    Helper (preview buf count result left i) := by
  induction left generalizing i with
  | zero => exact helper_pure ()
  | succ left ih =>
    unfold preview
    split
    next more =>
      refine tame_query _ _ (by simp [Own]) ?_ ?_
      · rintro ⟨value,errno⟩ answer
        cases value with
        | none => cases answer
        | some c => exact tame_bind (helper_log _) fun _ _ => ih (i+1)
      · rintro ⟨value,errno⟩ answer
        cases value with
        | none => exact harsh_undefined
        | some c => exact absurd rfl answer
    next done => exact helper_pure ()

/-- `find_fptr` and `CHECKER`, as a task for each state of the static variables. -/
def lookup (f : Fn) (s : Statics) : Op Unit :=
  if f ∈ s.found then pure ()
  else do
    let handle ← ask .dlopen
    if handle.value then
      let symbol ← ask (.dlsym f)
      if symbol.value then update fun s => {s with found := f::s.found}
      else do
        let _ ← ask (.fprintf s!"function pointer of {f.name} not found.\n".toList)
        exit 1
    else
      let _ ← ask (.dprintf 2 "dlopen failed.\n".toList)
      exit 1

theorem lookup_run (f : Fn) (s : Statics) : (find_fptr f >>= fun _ => CHECKER f).run s = (lookup f s).run s := by
  unfold find_fptr CHECKER lookup
  generalize "dlopen failed.\n".toList = first
  generalize s!"function pointer of {f.name} not found.\n".toList = second
  by_cases known : f ∈ s.found
  · simp [known]
  · simp only [then_run,state_run,bind_ret,andThen_done,known,not_false_eq_true,if_true,if_false,ask,query_run,bind_ask]
    refine congrArg _ (funext fun handle => ?_)
    cases handle.value with
    | false => simp [exit]
    | true =>
      simp only [if_true,then_run,query_run,bind_ask,bind_ret,andThen_done]
      refine congrArg _ (funext fun symbol => ?_)
      cases symbol.value with
      | false => simp [known]
      | true => simp

theorem helper_lookup (f : Fn) : Helper (find_fptr f >>= fun _ => CHECKER f) := by
  refine tame_cases (lookup f) (lookup_run f) fun s => ?_
  unfold lookup
  split
  next known => exact helper_pure ()
  next unknown =>
    have fails (q : Query) (mine : Own q) : Harsh Own (ask q >>= fun _ => exit 1 : Op Unit) :=
      harsh_query q _ mine fun _ => harsh_exit 1
    refine tame_query _ _ (by simp [Own]) ?_ ?_
    · intro handle opened
      have opened : handle.value = true := opened
      rw [if_pos opened]
      refine tame_query _ _ (by simp [Own]) ?_ ?_
      · intro symbol found
        have found : symbol.value = true := found
        rw [if_pos found]
        exact tame_update _
      · intro symbol missing
        have missing : ¬ symbol.value = true := missing
        rw [if_neg missing]
        exact fails _ (by simp [Own])
    · intro handle closed
      have closed : ¬ handle.value = true := closed
      rw [if_neg closed]
      exact fails _ (by simp [Own])

/-! Each wrapper calls the underlying function once. -/

abbrev Forwards (call : Call) (p : Op Int) : Prop := Once Own Benign (.real call) (·.value) p

theorem forwards_lookup (f : Fn) {call : Call} {rest : Op Int} (forwards : Forwards call rest) :
    Forwards call (find_fptr f >>= fun _ => CHECKER f >>= fun _ => rest) := by
  rw [← then_assoc]
  exact once_bind (helper_lookup f) fun _ _ => forwards

theorem forwards_callReal (call : Call) (rest : Int → Op Int)
    (returns : ∀ result, Tame Own Benign (· = result) (rest result)) : Forwards call (callReal call >>= rest) := by
  change Forwards call (query (.real call) >>= fun reply => rest reply.value)
  exact once_query _ (fun _ => trivial) fun reply => returns reply.value

theorem returns_log (text : Str) (result : Int) :
    Tame Own Benign (· = result) (log text >>= fun _ => pure result : Op Int) :=
  tame_bind (helper_log text) fun _ _ => tame_pure result rfl

theorem forwards_resolveFirst (f : Fn) (path : Path) (real : Call) (text : Str → Int → Str) :
    Forwards real (resolveFirst f path real text) :=
  forwards_lookup f (once_bind (helper_getAbsPath path) fun _ _ =>
    forwards_callReal real _ fun result => returns_log _ result)

theorem forwards_resolveLast (f : Fn) (path : Path) (real : Call) (text : Str → Int → Str) :
    Forwards real (resolveLast f path real text) :=
  forwards_lookup f (forwards_callReal real _ fun result =>
    tame_bind (helper_getAbsPath path) fun _ _ => returns_log _ result)

theorem forwards_transfer (f : Fn) {name : Op Str} (helper : Helper name) (buf : Word) (count : Nat) (real : Call)
    (head : Str → Str) (tail : Str → Int → Str) : Forwards real (transfer f name buf count real head tail) :=
  forwards_lookup f (forwards_callReal real _ fun result =>
    tame_bind helper fun _ _ => tame_bind (helper_log _) fun _ _ =>
      tame_bind (helper_preview buf count result 32 0) fun _ _ => returns_log _ result)

theorem forwards_temporary (f : Fn) (real : Call) : Forwards real (temporary f real) :=
  forwards_lookup f (forwards_callReal real _ fun result => returns_log _ result)

theorem forwards_rename (old new : Path) : Forwards (.rename old new) (Logger.rename old new) :=
  forwards_lookup .rename (once_bind (helper_getAbsPath old) fun _ _ =>
    forwards_callReal (.rename old new) _ fun result =>
      tame_bind (helper_getAbsPath new) fun _ _ => returns_log _ result)

theorem forwards_close (fildes : Int) (other : fildes ≠ 2) : Forwards (.close fildes) (Logger.close fildes) := by
  refine forwards_lookup .close (once_bind (helper_FD2name fildes) fun name _ => ?_)
  simp only [if_pos other]
  exact forwards_callReal (.close fildes) _ fun result => returns_log _ result

theorem forwards_fclose (stream : Stream) (other : stream ≠ .stderr) :
    Forwards (.fclose stream) (Logger.fclose stream) := by
  refine forwards_lookup .fclose (once_bind (helper_FILE2name stream) fun name _ => ?_)
  simp only [if_pos other]
  exact forwards_callReal (.fclose stream) _ fun result => returns_log _ result

/-- The two calls that are deliberately not performed. -/
def Call.withheld : Call → Bool
  | .close fildes => fildes = 2
  | .fclose stream => stream = .stderr
  | _ => false

/-- The call with the arguments that the caller gave; open has a mode only when the
flags ask for one. -/
def Call.passed : Call → Call
  | .open pathname flags mode => .open pathname flags (modeOf flags mode)
  | .open64 pathname flags mode => .open64 pathname flags (modeOf flags mode)
  | call => call

theorem perform_forwards (call : Call) (passed : call.withheld = false) : Forwards call.passed call.perform := by
  cases call with
  | chmod path mode => exact forwards_resolveFirst _ _ _ _
  | chown path owner group => exact forwards_resolveFirst _ _ _ _
  | close fildes => exact forwards_close fildes (by simpa [Call.withheld] using passed)
  | creat path mode => exact forwards_resolveLast _ _ _ _
  | creat64 path mode => exact forwards_resolveLast _ _ _ _
  | fclose stream => exact forwards_fclose stream (by simpa [Call.withheld] using passed)
  | fopen pathname mode => exact forwards_resolveLast _ _ _ _
  | fopen64 pathname mode => exact forwards_resolveLast _ _ _ _
  | fread ptr size nmemb stream => exact forwards_transfer _ (helper_FILE2name stream) _ _ _ _ _
  | fwrite ptr size nmemb stream => exact forwards_transfer _ (helper_FILE2name stream) _ _ _ _ _
  | «open» pathname flags mode => exact forwards_resolveLast _ _ _ _
  | open64 pathname flags mode => exact forwards_resolveLast _ _ _ _
  | read fildes buf nbyte => exact forwards_transfer _ (helper_FD2name fildes) _ _ _ _ _
  | remove pathname => exact forwards_resolveFirst _ _ _ _
  | rename old new => exact forwards_rename old new
  | tmpfile => exact forwards_temporary _ _
  | tmpfile64 => exact forwards_temporary _ _
  | write fildes buf nbyte => exact forwards_transfer _ (helper_FD2name fildes) _ _ _ _ _

theorem returns_withheld (f : Fn) {name : Op Str} (helper : Helper name) (text : Str → Str) :
    Tame Own Benign (· = 0) (find_fptr f >>= fun _ => CHECKER f >>= fun _ => name >>= fun name =>
      (pure 0 : Op Int) >>= fun result => log (text name) >>= fun _ => pure result) := by
  rw [← then_assoc]
  exact tame_bind (helper_lookup f) fun _ _ => tame_bind helper fun name _ => returns_log (text name) 0

theorem perform_withheld (call : Call) (withheld : call.withheld = true) :
    Tame Own Benign (· = 0) call.perform := by
  cases call with
  | close fildes =>
    obtain rfl : fildes = 2 := by simpa [Call.withheld] using withheld
    exact returns_withheld .close (helper_FD2name 2) fun name => record .close [quoted name] (decimal 0)
  | fclose stream =>
    obtain rfl : stream = .stderr := by simpa [Call.withheld] using withheld
    exact returns_withheld .fclose (helper_FILE2name .stderr) fun name => record .fclose [quoted name] (decimal 0)
  | _ => cases withheld

/-! errno over a play. -/

def errnoAfter (errno : Int) (play : List (Sigma Answer)) : Int :=
  play.foldl (fun errno x => x.2.errno.getD errno) errno

def lastErrno : List (Sigma Answer) → Option Int
  | [] => none
  | x::rest => (lastErrno rest).or x.2.errno

theorem errnoAfter_last (errno : Int) (play : List (Sigma Answer)) :
    errnoAfter errno play = (lastErrno play).getD errno := by
  induction play generalizing errno with
  | nil => rfl
  | cons x rest ih =>
    change errnoAfter (x.2.errno.getD errno) rest = _
    rw [ih,lastErrno]
    cases lastErrno rest <;> rfl

theorem errnoAfter_append (errno : Int) (first second : List (Sigma Answer)) :
    errnoAfter errno (first ++ second) = errnoAfter (errnoAfter errno first) second := List.foldl_append

/-! Sessions of a traced program. -/

structure Interaction where
  errno : Int
  call : Call
  play : List (Sigma Answer)
  ending : Ending Statics Stop Int

inductive Session : Statics → List Interaction → Prop
  | nil (statics : Statics) : Session statics []
  | returned (statics : Statics) (errno : Int) (call : Call) (play : List (Sigma Answer)) (result : Int)
      (after : Statics) (rest : List Interaction) (goes : Played (call.perform.run statics) play (.done result after))
      (later : Session after rest) : Session statics (⟨errno,call,play,.done result after⟩::rest)
  | stopped (statics : Statics) (errno : Int) (call : Call) (play : List (Sigma Answer)) (why : Stop)
      (goes : Played (call.perform.run statics) play (.stopped why)) :
      Session statics [⟨errno,call,play,.stopped why⟩]

/-- The underlying function is called once with the caller's arguments, its result
is returned, and errno is left as it left it. -/
def Interaction.Passes (i : Interaction) : Prop :=
  ∃ before reply after, i.play = before ++ ⟨.real i.call.passed,reply⟩::after ∧
    (∀ x ∈ before, Own x.1) ∧ (∀ x ∈ after, Own x.1) ∧ i.ending.result = some reply.value ∧
    errnoAfter i.errno i.play = errnoAfter i.errno (before ++ [⟨.real i.call.passed,reply⟩])

def Interaction.Invisible (i : Interaction) : Prop :=
  if i.call.withheld then i.ending.result = some 0 ∧ ∀ x ∈ i.play, Own x.1 else i.Passes

/-- No answer stops the wrapper, and the last of its own calls after the underlying
one that sets errno sets it to the value that it has. -/
structure Interaction.Undisturbed (i : Interaction) : Prop where
  benign : ∀ x ∈ i.play, Benign x
  errno : ∀ before reply after, i.play = before ++ ⟨.real i.call.passed,reply⟩::after →
    ∀ last, lastErrno after = some last → last = errnoAfter i.errno (before ++ [⟨.real i.call.passed,reply⟩])

theorem real_not_own (call : Call) : ¬ Own (.real call) := fun own => own call rfl

theorem invisible_withheld (i : Interaction) (statics : Statics) (withheld : i.call.withheld = true)
    (goes : Played (i.call.perform.run statics) i.play i.ending) : i.Invisible ↔ i.Undisturbed := by
  have tame := perform_withheld i.call withheld
  have own := tame.asks statics i.play i.ending goes
  have ends := tame.ends statics i.play i.ending goes
  simp only [Interaction.Invisible,withheld,if_true]
  constructor
  · rintro ⟨result,_⟩
    refine ⟨ends.mp (by rw [result]; rfl),?_⟩
    intro before reply after split
    refine absurd (own ⟨.real i.call.passed,reply⟩ ?_) (real_not_own _)
    rw [split]
    exact List.mem_append_right _ (List.mem_cons_self ..)
  · intro undisturbed
    obtain ⟨value,result⟩ := Option.isSome_iff_exists.mp (ends.mpr undisturbed.benign)
    rw [result,tame.returns statics i.play i.ending value goes result]
    exact ⟨rfl,own⟩

theorem invisible_passed (i : Interaction) (statics : Statics) (passed : i.call.withheld = false)
    (goes : Played (i.call.perform.run statics) i.play i.ending) : i.Invisible ↔ i.Undisturbed := by
  have forwards := perform_forwards i.call passed
  have ends := forwards.ends statics i.play i.ending goes
  have kept (left : Int) (after : List (Sigma Answer)) :
      errnoAfter left after = left ↔ ∀ last, lastErrno after = some last → last = left := by
    rw [errnoAfter_last]
    cases lastErrno after <;> simp
  simp only [Interaction.Invisible,passed,Bool.false_eq_true,if_false]
  constructor
  · rintro ⟨before,reply,after,split,first,last,result,errno⟩
    refine ⟨ends.mp (by rw [result]; rfl),?_⟩
    intro before' reply' after' split'
    obtain ⟨rfl,same,rfl⟩ := split_unique (fun x => ¬ Own x.1) (split.symm.trans split')
      (fun x member other => other (first x member)) (fun x member other => other (last x member)) (real_not_own _)
    cases same
    rw [split,List.append_cons,errnoAfter_append] at errno
    exact (kept _ _).mp errno
  · intro undisturbed
    obtain ⟨value,result⟩ := Option.isSome_iff_exists.mp (ends.mpr undisturbed.benign)
    obtain ⟨before,reply,after,split,first,last,rfl⟩ := forwards.once statics i.play i.ending value goes result
    refine ⟨before,reply,after,split,first,last,result,?_⟩
    rw [split,List.append_cons,errnoAfter_append]
    exact (kept _ _).mpr (undisturbed.errno before reply after split)

theorem invisible_one (i : Interaction) (statics : Statics)
    (goes : Played (i.call.perform.run statics) i.play i.ending) : i.Invisible ↔ i.Undisturbed := by
  cases withheld : i.call.withheld with
  | true => exact invisible_withheld i statics withheld goes
  | false => exact invisible_passed i statics withheld goes

/-- The logger is invisible over a session exactly when no call was disturbed. -/
theorem invisible_iff_undisturbed (statics : Statics) (session : List Interaction)
    (made : Session statics session) : (∀ i ∈ session, i.Invisible) ↔ ∀ i ∈ session, i.Undisturbed := by
  induction made with
  | nil statics => exact ⟨fun _ i member => absurd member List.not_mem_nil,fun _ i member => absurd member List.not_mem_nil⟩
  | returned statics errno call play result after rest goes later ih =>
    simp only [List.forall_mem_cons,ih]
    exact and_congr_left' (invisible_one _ statics goes)
  | stopped statics errno call play why goes =>
    simp only [List.forall_mem_singleton]
    exact invisible_one _ statics goes

/-! A failing call whose errno is lost. -/

def sampleAnswer : (q : Query) → Answer q
  | .dlopen => ⟨true,none⟩
  | .dlsym _ => ⟨true,none⟩
  | .logger => ⟨some 2,none⟩
  | .getpid => ⟨7,none⟩
  | .realpath _ => ⟨.path "/f".toList,none⟩
  | .fileno _ => ⟨3,none⟩
  | .readlink _ => ⟨some "/f".toList,none⟩
  | .dprintf _ text => ⟨text.length,none⟩
  | .fprintf _ => ⟨(),none⟩
  | .peek _ => ⟨some 0x61,none⟩
  | .real _ => ⟨0,none⟩

/-- An environment without the descriptor: the call fails with EBADF, and readlink
on its entry in /proc with ENOENT. -/
def badAnswer : (q : Query) → Answer q
  | .readlink _ => ⟨none,some 2⟩
  | .real _ => ⟨-1,some 9⟩
  | q => sampleAnswer q

def firstCall (answer : (q : Query) → Answer q) (call : Call) : Interaction :=
  ⟨0,call,((call.perform.run Statics.initial).play answer).1,((call.perform.run Statics.initial).play answer).2⟩

theorem firstCall_session (answer : (q : Query) → Answer q) (call : Call) :
    Session Statics.initial [firstCall answer call] := by
  have goes := play_played answer (call.perform.run Statics.initial)
  rw [firstCall]
  cases ended : ((call.perform.run Statics.initial).play answer).2 with
  | done result after =>
    rw [ended] at goes
    exact .returned _ 0 call _ result after [] goes (.nil after)
  | stopped why =>
    rw [ended] at goes
    exact .stopped _ 0 call _ why goes

def SetsErrno : Sigma Answer → Prop
  | ⟨.readlink _,a⟩ => a.value = none → a.errno.isSome
  | ⟨.realpath _,a⟩ => (match a.value with | .failed _ => true | _ => false) → a.errno.isSome
  | ⟨.dprintf _ _,a⟩ => a.value < 0 → a.errno.isSome
  | _ => True

theorem badAnswer_sets (q : Query) : SetsErrno ⟨q,badAnswer q⟩ := by
  cases q with
  | readlink path => exact fun _ => rfl
  | realpath path => exact fun failed => by cases failed
  | dprintf fd text => exact fun negative => absurd negative (by simp [badAnswer,sampleAnswer])
  | _ => trivial

theorem failing_read_visible :
    Session Statics.initial [firstCall badAnswer (.read 99 0 0)] ∧
      (∀ x ∈ (firstCall badAnswer (.read 99 0 0)).play, SetsErrno x) ∧
      ¬ ∀ i ∈ [firstCall badAnswer (.read 99 0 0)], i.Invisible := by
  refine ⟨firstCall_session _ _,?_,?_⟩
  · intro x member
    rw [play_answers badAnswer _ x member]
    exact badAnswer_sets x.1
  · intro all
    have goes := play_played badAnswer ((Call.read 99 0 0).perform.run Statics.initial)
    have undisturbed := (invisible_one (firstCall badAnswer (.read 99 0 0)) _ goes).mp
      (all _ (List.mem_singleton_self _))
    have same := undisturbed.errno ((firstCall badAnswer (.read 99 0 0)).play.take 2) ⟨-1,some 9⟩
      ((firstCall badAnswer (.read 99 0 0)).play.drop 3) rfl 2 rfl
    exact absurd same (by decide)

theorem invisible_iff_undisturbed_sample :
    (∀ i ∈ [firstCall sampleAnswer (.read 3 0x1000 4)], i.Invisible) ↔
      ∀ i ∈ [firstCall sampleAnswer (.read 3 0x1000 4)], i.Undisturbed :=
  invisible_iff_undisturbed Statics.initial _ (firstCall_session sampleAnswer (.read 3 0x1000 4))

end Unixprog.Logger
