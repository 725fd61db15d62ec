import Unixprog.Logger.Records
import Unixprog.Library.Runs

/-! Where the log goes. The traced program opens and closes descriptors through the
wrappers, and the logger writes to a descriptor number. -/
namespace Unixprog.Logger
open Plays Runs

inductive Description
  | inherited (count : Nat)
  | opened (count : Nat)
deriving DecidableEq

/-- The descriptors of the traced process, those under its streams, and how many
files it has opened. -/
structure World where
  table : List (Option Description)
  streams : Stream → Option Nat
  opened : Nat

def World.lookup (w : World) (fd : Int) : Option Description :=
  if fd < 0 then none else (w.table[fd.toNat]?).join

def World.lowest (w : World) : Nat := w.table.findIdx (·.isNone)

def World.install (w : World) : World :=
  let file := some (Description.opened w.opened)
  {w with
    table := if w.lowest < w.table.length then w.table.set w.lowest file else w.table ++ [file]
    opened := w.opened+1}

def World.release (w : World) (fd : Nat) : World := {w with table := w.table.set fd none}

def World.openStream (w : World) (stream : Stream) : World :=
  {w.install with streams := fun s => if s = stream then some w.lowest else w.streams s}

def World.closeStream (w : World) (stream : Stream) : World :=
  match w.streams stream with
  | none => w
  | some fd => {w.release fd with streams := fun s => if s = stream then none else w.streams s}

/-- What an underlying call does to the descriptors. A descriptor is gone after
close whatever close returns. -/
def World.settle (w : World) (result : Int) : Call → World
  | .open .. => if 0 ≤ result then w.install else w
  | .open64 .. => if 0 ≤ result then w.install else w
  | .creat .. => if 0 ≤ result then w.install else w
  | .creat64 .. => if 0 ≤ result then w.install else w
  | .fopen .. => if result ≠ 0 then w.openStream (.file (BitVec.ofInt 64 result)) else w
  | .fopen64 .. => if result ≠ 0 then w.openStream (.file (BitVec.ofInt 64 result)) else w
  | .tmpfile => if result ≠ 0 then w.openStream (.file (BitVec.ofInt 64 result)) else w
  | .tmpfile64 => if result ≠ 0 then w.openStream (.file (BitVec.ofInt 64 result)) else w
  | .close fildes => if fildes < 0 then w else w.release fildes.toNat
  | .fclose stream => w.closeStream stream
  | _ => w

def World.after (w : World) : Sigma Answer → World
  | ⟨.real call,reply⟩ => w.settle reply.value call
  | _ => w

def World.afterAll (w : World) (play : List (Sigma Answer)) : World := play.foldl World.after w

def World.receives (w : World) : Sigma Answer → List (Description × Str)
  | ⟨.dprintf fd text,a⟩ => if 0 ≤ a.value then ((w.lookup fd).map (·,text)).toList else []
  | _ => []

def World.written (w : World) : List (Sigma Answer) → List (Description × Str)
  | [] => []
  | x::rest => w.receives x ++ (w.after x).written rest

def Call.opens : Call → Bool
  | .open .. => true
  | .open64 .. => true
  | .creat .. => true
  | .creat64 .. => true
  | _ => false

def Lawful (n : Int) (w : World) : Sigma Answer → Prop
  | ⟨.logger,a⟩ => a.value = some n
  | ⟨.real call,a⟩ => call.opens = true → 0 ≤ a.value → a.value = w.lowest
  | _ => True

def Obeys (n : Int) : World → List (Sigma Answer) → Prop
  | _,[] => True
  | w,x::rest => Lawful n w x ∧ Obeys n (w.after x) rest

theorem Obeys.tells {n : Int} {w : World} {play : List (Sigma Answer)} (obeys : Obeys n w play) :
    ∀ x ∈ play, Tells n x := by
  induction play generalizing w with
  | nil => exact fun x member => absurd member List.not_mem_nil
  | cons x rest ih =>
    obtain ⟨lawful,later⟩ := obeys
    refine List.forall_mem_cons.mpr ⟨?_,ih later⟩
    obtain ⟨q,a⟩ := x
    cases q with
    | logger => exact lawful
    | _ => trivial

/-! A call that spares the descriptor of the log leaves the file there. -/

theorem lookup_some {w : World} {n : Int} {file : Description} :
    w.lookup n = some file ↔ 0 ≤ n ∧ w.table[n.toNat]? = some (some file) := by
  unfold World.lookup
  split
  next negative =>
    constructor
    · intro found
      cases found
    · rintro ⟨positive,_⟩
      omega
  next positive =>
    rw [Option.join_eq_some_iff]
    exact ⟨fun found => ⟨by omega,found⟩,fun found => found.2⟩

theorem lookup_install {w : World} {n : Int} {file : Description} (found : w.lookup n = some file) :
    w.install.lookup n = some file := by
  rw [lookup_some] at found ⊢
  obtain ⟨positive,entry⟩ := found
  obtain ⟨bound,here⟩ := List.getElem?_eq_some_iff.mp entry
  refine ⟨positive,?_⟩
  simp only [World.install]
  split
  next free =>
    have empty : w.table[w.lowest].isNone = true := List.findIdx_getElem
    have other : w.lowest ≠ n.toNat := by
      intro same
      simp only [same,here] at empty
      cases empty
    rw [List.getElem?_set_ne other,entry]
  next full => rw [List.getElem?_append_left bound,entry]

theorem lookup_release {w : World} {n : Int} {file : Description} (fd : Nat) (other : fd ≠ n.toNat)
    (found : w.lookup n = some file) : (w.release fd).lookup n = some file := by
  rw [lookup_some] at found ⊢
  refine ⟨found.1,?_⟩
  simp only [World.release]
  rw [List.getElem?_set_ne other,found.2]

def Call.releases (w : World) : Call → Option Int
  | .close fildes => if fildes = 2 then none else some fildes
  | .fclose stream => if stream = .stderr then none else (w.streams stream).map Int.ofNat
  | _ => none

theorem lookup_settle {w : World} {n : Int} {file : Description} (call : Call) (result : Int)
    (passed : call.withheld = false) (spares : call.releases w ≠ some n) (found : w.lookup n = some file) :
    (w.settle result call.passed).lookup n = some file := by
  have installs : (if 0 ≤ result then w.install else w).lookup n = some file := by
    split
    · exact lookup_install found
    · exact found
  have streams (stream : Stream) : (if result ≠ 0 then w.openStream stream else w).lookup n = some file := by
    split
    · exact lookup_install found
    · exact found
  have positive := (lookup_some.mp found).1
  cases call with
  | «open» => exact installs
  | open64 => exact installs
  | creat => exact installs
  | creat64 => exact installs
  | fopen => exact streams _
  | fopen64 => exact streams _
  | tmpfile => exact streams _
  | tmpfile64 => exact streams _
  | close fildes =>
    have other : fildes ≠ 2 := by simpa [Call.withheld] using passed
    simp only [Call.releases,if_neg other,ne_eq,Option.some.injEq] at spares
    simp only [Call.passed,World.settle]
    split
    next negative => exact found
    next valid => exact lookup_release fildes.toNat (by omega) found
  | fclose stream =>
    have other : stream ≠ .stderr := by simpa [Call.withheld] using passed
    simp only [Call.releases,if_neg other] at spares
    simp only [Call.passed,World.settle,World.closeStream]
    split
    next closed => exact found
    next fd under =>
      refine lookup_release fd ?_ found
      rintro rfl
      refine spares ?_
      rw [under]
      exact congrArg some (Int.toNat_of_nonneg positive)
  | _ => exact found

/-! What a play writes, and where. -/

theorem after_own (w : World) (x : Sigma Answer) (own : Own x.1) : w.after x = w := by
  obtain ⟨q,a⟩ := x
  cases q with
  | real call => exact absurd rfl (own call)
  | _ => rfl

theorem afterAll_own (w : World) (play : List (Sigma Answer)) (own : ∀ x ∈ play, Own x.1) : w.afterAll play = w := by
  induction play with
  | nil => rfl
  | cons x rest ih =>
    obtain ⟨first,others⟩ := List.forall_mem_cons.mp own
    change (w.after x).afterAll rest = w
    rw [after_own w x first,ih others]

theorem written_append (w : World) (first second : List (Sigma Answer)) :
    w.written (first ++ second) = w.written first ++ (w.afterAll first).written second := by
  induction first generalizing w with
  | nil => rfl
  | cons x rest ih =>
    simp only [List.cons_append,World.written,ih,List.append_assoc]
    rfl

def Delivered : Sigma Answer → Prop
  | ⟨.dprintf _ _,a⟩ => 0 ≤ a.value
  | _ => True

theorem receives_logged {w : World} {n : Int} {file : Description} (found : w.lookup n = some file)
    (x : Sigma Answer) (delivered : Delivered x) (place : ∀ e ∈ logged [x], e.1 = n) :
    w.receives x = (logged [x]).map fun e => (file,e.2) := by
  obtain ⟨q,a⟩ := x
  cases q with
  | dprintf fd text =>
    obtain rfl : fd = n := place (fd,text) (List.mem_singleton_self _)
    have delivered : 0 ≤ a.value := delivered
    simp only [World.receives,if_pos delivered,found]
    rfl
  | _ => rfl

theorem written_own {w : World} {n : Int} {file : Description} (found : w.lookup n = some file)
    (play : List (Sigma Answer)) (own : ∀ x ∈ play, Own x.1) (delivered : ∀ x ∈ play, Delivered x)
    (place : ∀ e ∈ logged play, e.1 = n) : w.written play = (logged play).map fun e => (file,e.2) := by
  induction play with
  | nil => rfl
  | cons x rest ih =>
    obtain ⟨first,others⟩ := List.forall_mem_cons.mp own
    obtain ⟨whole,wholes⟩ := List.forall_mem_cons.mp delivered
    have split : logged (x::rest) = logged [x] ++ logged rest := logged_append [x] rest
    rw [split] at place ⊢
    obtain ⟨here,later⟩ := List.forall_mem_append.mp place
    rw [World.written,after_own w x first,ih others wholes later,receives_logged found x whole here,List.map_append]

theorem written_call {n : Int} {w : World} {file : Description} (found : w.lookup n = some file) {call : Call}
    {s : Statics} {play : List (Sigma Answer)} {result : Int} {after : Statics}
    (goes : Played (call.perform.run s) play (.done result after)) (delivered : ∀ x ∈ play, Delivered x)
    (spares : call.releases w ≠ some n) (place : ∀ e ∈ logged play, e.1 = n) :
    w.written play = (logged play).map (fun e => (file,e.2)) ∧ (w.afterAll play).lookup n = some file := by
  cases withheld : call.withheld with
  | true =>
    have own := (perform_withheld call withheld).asks s play _ goes
    rw [afterAll_own w play own]
    exact ⟨written_own found play own delivered place,found⟩
  | false =>
    obtain ⟨before,reply,later,rfl,first,last,_⟩ := (perform_forwards call withheld).once s play _ result goes rfl
    have split : before ++ ⟨.real call.passed,reply⟩::later = before ++ ([⟨.real call.passed,reply⟩] ++ later) := rfl
    have silent : logged [⟨.real call.passed,reply⟩] = [] := rfl
    rw [split,logged_append,logged_append,silent,List.nil_append] at place ⊢
    obtain ⟨early,late⟩ := List.forall_mem_append.mp place
    obtain ⟨whole,wholes⟩ := List.forall_mem_append.mp delivered
    have kept : (w.settle reply.value call.passed).lookup n = some file :=
      lookup_settle call reply.value withheld spares found
    have settled : w.afterAll (before ++ ([⟨.real call.passed,reply⟩] ++ later)) =
        w.settle reply.value call.passed := by
      simp only [World.afterAll,List.foldl_append,List.foldl_cons,List.foldl_nil]
      change ((w.afterAll before).settle reply.value call.passed).afterAll later = _
      rw [afterAll_own w before first,afterAll_own _ later last]
    refine ⟨?_,by rw [settled]; exact kept⟩
    rw [written_append,afterAll_own w before first,written_own found before first whole early,List.map_append]
    congr 1
    change [] ++ (w.settle reply.value call.passed).written later = _
    rw [List.nil_append]
    exact written_own kept later last (List.forall_mem_cons.mp wholes).2 late

/-! Runs of the traced program. -/

/-- The program at a point between two of its calls: the calls so far with their
results, what was logged so far, and the file that the log was in the beginning. -/
structure Traced where
  statics : Statics
  world : World
  calls : List (Call × Option Int)
  log : List (Description × Str)
  ended : Bool
  file : Nat

def Traced.next (s : Traced) (call : Call) (play : List (Sigma Answer)) (ending : Ending Statics Stop Int) : Traced where
  statics := match ending with
    | .done _ after => after
    | .stopped _ => s.statics
  world := s.world.afterAll play
  calls := s.calls ++ [(call,ending.result)]
  log := s.log ++ s.world.written play
  ended := ending.result.isNone
  file := s.file

/-- A program whose LOGGER is `n`. In the beginning `n` is open, and no file is open
that the program opened itself. -/
def traced (n : Int) : System Traced (Call × List (Sigma Answer)) where
  initial s := s.statics = Statics.initial ∧ s.calls = [] ∧ s.log = [] ∧ s.ended = false ∧
    s.world.lookup n = some (.inherited s.file) ∧ ∀ fd count, s.world.lookup fd ≠ some (.opened count)
  step s label t := s.ended = false ∧ Obeys n s.world label.2 ∧
    ∃ ending, Played (label.1.perform.run s.statics) label.2 ending ∧ t = s.next label.1 label.2 ending

/-- Every call has added one record to the file that the log was in the beginning, in
the order of the calls, and nothing was logged elsewhere. -/
structure Traced.LogKept (s : Traced) : Prop where
  records : ∃ records : List Str, (s.log.map Prod.snd).flatten = records.flatten ∧
    List.Forall₂ (fun made text => ∃ result args, made.2 = some result ∧
      text = record made.1.fn args (made.1.shown result)) s.calls records
  place : ∀ entry ∈ s.log, entry.1 = .inherited s.file

/-- No answer stops the wrapper or cuts its log short, and the call does not close
the descriptor of the log. -/
structure Spares (n : Int) (s : Traced) (label : Call × List (Sigma Answer)) : Prop where
  benign : ∀ x ∈ label.2, Benign x
  delivered : ∀ x ∈ label.2, Delivered x
  spared : label.1.releases s.world ≠ some n

theorem perform_returns {call : Call} {s : Statics} {play : List (Sigma Answer)} {ending : Ending Statics Stop Int}
    (goes : Played (call.perform.run s) play ending) (benign : ∀ x ∈ play, Benign x) :
    ∃ result after, ending = .done result after := by
  have returned : ending.result.isSome := by
    cases withheld : call.withheld with
    | true => exact ((perform_withheld call withheld).ends s play ending goes).mpr benign
    | false => exact ((perform_forwards call withheld).ends s play ending goes).mpr benign
  cases ending with
  | done result after => exact ⟨result,after,rfl⟩
  | stopped why => cases returned

/-- In every run in which the log's descriptor is spared, the log goes to the log and
nowhere else. -/
theorem spared_run_logged (n : Int) (s : Traced) (run : Guarded (traced n) (Spares n) s) : s.LogKept := by
  suffices kept : s.world.lookup n = some (.inherited s.file) ∧ Knows n s.statics ∧ s.LogKept from kept.2.2
  refine run.invariant (fun s => s.world.lookup n = some (.inherited s.file) ∧ Knows n s.statics ∧ s.LogKept) ?_ ?_
  · rintro s ⟨statics,calls,log,_,found,_⟩
    refine ⟨found,.inl (by rw [statics]; decide),⟨[],?_,?_⟩,?_⟩
    · rw [log]
      rfl
    · rw [calls]
      exact .nil
    · rw [log]
      exact fun entry member => absurd member List.not_mem_nil
  · rintro s ⟨call,play⟩ t ⟨found,knows,⟨records,same,made⟩,place⟩ spares ⟨_,obeys,ending,goes,rfl⟩
    obtain ⟨result,after,rfl⟩ := perform_returns goes spares.benign
    obtain ⟨knows',ts,recorded,texts⟩ := perform_writes n call s.statics play result after goes knows obeys.tells
    have aimed : ∀ e ∈ logged play, e.1 = n := by
      rw [texts]
      rintro e member
      obtain ⟨t,_,rfl⟩ := List.mem_map.mp member
      rfl
    obtain ⟨written,kept⟩ := written_call found goes spares.delivered spares.spared aimed
    obtain ⟨args,text⟩ := recorded.record
    have wrote : s.world.written play = ts.map fun t => (Description.inherited s.file,t) := by
      rw [written,texts,List.map_map]
      rfl
    refine ⟨kept,knows',⟨records ++ [ts.flatten],?_,?_⟩,?_⟩
    · simp only [Traced.next,wrote,List.map_append,List.map_map,List.flatten_append,same,List.flatten_singleton]
      congr 1
      exact congrArg List.flatten (List.map_id ts)
    · exact List.rel_append made (.cons ⟨result,args,rfl,text⟩ .nil)
    · simp only [Traced.next,wrote]
      refine List.forall_mem_append.mpr ⟨place,?_⟩
      rintro entry member
      obtain ⟨t,_,rfl⟩ := List.mem_map.mp member
      rfl

/-! A program under `hw2 -o` that closes every descriptor it did not open. -/

def Traced.perform (s : Traced) (answer : (q : Query) → Answer q) (call : Call) : Traced :=
  s.next call ((call.perform.run s.statics).play answer).1 ((call.perform.run s.statics).play answer).2

theorem perform_step {n : Int} {s : Traced} (answer : (q : Query) → Answer q) (call : Call) (going : s.ended = false)
    (obeys : Obeys n s.world ((call.perform.run s.statics).play answer).1) :
    (traced n).step s (call,((call.perform.run s.statics).play answer).1) (s.perform answer call) :=
  ⟨going,obeys,_,play_played answer (call.perform.run s.statics),rfl⟩

def sampleStart : Traced where
  statics := Statics.initial
  world := ⟨(List.range 4).map fun fd => some (.inherited fd),fun _ => none,0⟩
  calls := []
  log := []
  ended := false
  file := 3

def answering (result count : Int) : (q : Query) → Answer q
  | .logger => ⟨some 3,none⟩
  | .real _ => ⟨result,none⟩
  | .dprintf _ _ => ⟨count,none⟩
  | q => sampleAnswer q

def logClosed : Traced := sampleStart.perform (answering 0 (-1)) (.close 3)

/-- The file that the program opens next gets descriptor 3 and the record. -/
def logMixed : Traced := logClosed.perform (answering 3 40) (.open (some "f".toList) 0x41 0x180)

theorem sampleStart_initial : (traced 3).initial sampleStart := by
  refine ⟨rfl,rfl,rfl,rfl,rfl,?_⟩
  intro fd count found
  have entry := (lookup_some.mp found).2
  simp [sampleStart,List.getElem?_map] at entry

theorem logClosed_reached : Reachable (traced 3) logClosed := by
  refine .next (.start sampleStart_initial) (perform_step (answering 0 (-1)) (.close 3) rfl ?_) trivial
  exact .intro trivial <| .intro trivial <| .intro trivial <| .intro trivial <|
    .intro (fun opens => Bool.noConfusion opens) <| .intro rfl <| .intro trivial trivial

theorem reopened_descriptor_logged :
    Reachable (traced 3) logMixed ∧ (∃ text, (Description.opened 0,text) ∈ logMixed.log) ∧ ¬ logMixed.LogKept := by
  refine ⟨?_,⟨_,List.mem_singleton_self _⟩,?_⟩
  · refine .next logClosed_reached (perform_step (answering 3 40) (.open (some "f".toList) 0x41 0x180) rfl ?_) trivial
    exact .intro trivial <| .intro trivial <| .intro (fun _ _ => rfl) <| .intro trivial <| .intro trivial trivial
  · rintro ⟨_,place⟩
    exact Description.noConfusion (place _ (List.mem_singleton_self _))

theorem answering_benign (result count : Int) (q : Query) : Benign ⟨q,answering result count q⟩ := by
  cases q with
  | dlopen => rfl
  | dlsym f => rfl
  | logger => rfl
  | realpath path => exact (by decide : "/f".toList.length < BUFSIZE)
  | readlink path =>
    rintro name same
    cases same
    decide
  | peek address => rfl
  | _ => trivial

theorem answering_delivered {count : Int} (whole : 0 ≤ count) (result : Int) (q : Query) :
    Delivered ⟨q,answering result count q⟩ := by
  cases q with
  | dprintf fd text => exact whole
  | _ => trivial

theorem spared_run_logged_sample : (sampleStart.perform (answering 0 40) (.close 4)).LogKept := by
  refine spared_run_logged 3 _ (.next (.start sampleStart_initial)
    (perform_step (answering 0 40) (.close 4) rfl ?_) ⟨?_,?_,?_⟩)
  · exact .intro trivial <| .intro trivial <| .intro trivial <| .intro trivial <|
      .intro (fun opens => Bool.noConfusion opens) <| .intro rfl <| .intro trivial trivial
  · intro x member
    rw [play_answers _ _ x member]
    exact answering_benign 0 40 x.1
  · intro x member
    rw [play_answers _ _ x member]
    exact answering_delivered (by decide) 0 x.1
  · decide

end Unixprog.Logger
