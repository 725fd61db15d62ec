import Unixprog.Sdb.Main
import Unixprog.Sdb.Lifecycle
import Mathlib.Data.List.TakeWhile

/-! Script mode and interactive mode. They do the same until the input is at its end;
there only a script ends the debugger. -/
namespace Unixprog.Sdb
open CStrings

def inputLines : List Char → List (List Char)
  | [] => []
  | c::rest =>
    if c = '\n' then []::inputLines rest
    else match inputLines rest with
      | [] => [[c]]
      | line::more => (c::line)::more

theorem inputLines_clean (input : List Char) : ∀ line ∈ inputLines input, '\n' ∉ line := by
  induction input with
  | nil => exact fun line member => absurd member List.not_mem_nil
  | cons c rest ih =>
    unfold inputLines
    split
    next newline => exact List.forall_mem_cons.mpr ⟨List.not_mem_nil,ih⟩
    next other =>
      have other : '\n' ≠ c := Ne.symm other
      cases lines : inputLines rest with
      | nil => simp [other]
      | cons line more =>
        rw [lines] at ih
        obtain ⟨first,later⟩ := List.forall_mem_cons.mp ih
        exact List.forall_mem_cons.mpr ⟨by simp [other,first],later⟩

theorem inputLines_text (text rest : List Char) (clean : '\n' ∉ text) :
    inputLines (text ++ '\n'::rest) = text::inputLines rest := by
  induction text with
  | nil => simp [inputLines]
  | cons c text ih =>
    obtain ⟨other,clean⟩ : '\n' ≠ c ∧ '\n' ∉ text := by simpa using clean
    rw [List.cons_append,inputLines,if_neg (Ne.symm other),ih clean]

theorem inputLines_last (c : Char) (text : List Char) (clean : '\n' ∉ c::text) :
    inputLines (c::text) = [c::text] := by
  induction text generalizing c with
  | nil =>
    have other : c ≠ '\n' := Ne.symm (by simpa using clean)
    simp [inputLines,other]
  | cons d text ih =>
    obtain ⟨other,clean⟩ : '\n' ≠ c ∧ '\n' ∉ d::text := by simpa using clean
    rw [inputLines,if_neg (Ne.symm other),ih d clean]

theorem getline_none {input : List Char} (read : getline input = none) : input = [] := by
  cases input with
  | nil => rfl
  | cons c rest => simp [getline] at read

theorem getline_lines (input line rest : List Char) (read : getline input = some (line,rest)) :
    inputLines input = chomp line::inputLines rest ∧ rest.length < input.length := by
  cases input with
  | nil => cases read
  | cons c tail =>
    have split := List.takeWhile_append_dropWhile (p := (· ≠ '\n')) (l := c::tail)
    have clean : '\n' ∉ (c::tail).takeWhile (· ≠ '\n') := by
      intro member
      simpa using List.mem_takeWhile_imp member
    simp only [getline,Option.some.injEq,Prod.mk.injEq] at read
    generalize (c::tail).takeWhile (· ≠ '\n') = text at split clean read
    cases after : (c::tail).dropWhile (· ≠ '\n') with
    | nil =>
      rw [after] at split read
      obtain ⟨rfl,rfl⟩ := read
      rw [List.append_nil] at split
      subst text
      simp only [List.take_nil,List.append_nil,List.drop_nil,chomp_clean clean,inputLines_last c tail clean]
      exact ⟨rfl,by simp⟩
    | cons d left =>
      have newline : d = '\n' := by
        have head := List.head?_dropWhile_not (fun x => decide (x ≠ '\n')) (c::tail)
        rw [after] at head
        simpa using head
      subst d
      rw [after] at split read
      obtain ⟨rfl,rfl⟩ := read
      rw [← split]
      simp only [List.take_succ_cons,List.take_zero,List.drop_succ_cons,List.drop_zero,chomp_newline,
        inputLines_text text left clean,true_and]
      simp only [List.length_append,List.length_cons]
      omega

/-! The line that main takes again at the end of standard input. -/

theorem calm_ite (c : Prop) [Decidable c] {first second : Reaction} (one : first.quits = false)
    (two : second.quits = false) : (if c then first else second).quits = false := by
  split
  · exact one
  · exact two

theorem dispatch_quits (cmd : String) (tokens : List (List Char)) :
    (dispatch cmd tokens).quits = decide (cmd = "exit" ∨ cmd = "q") := by
  by_cases quits : cmd = "exit" ∨ cmd = "q"
  · rw [decide_eq_true quits]
    obtain rfl | rfl := quits
    · rfl
    · rfl
  · rw [decide_eq_false quits]
    unfold dispatch
    rw [if_neg quits]
    repeat' refine calm_ite _ ?_ ?_
    all_goals first | rfl | (split <;> rfl)

def firstWord (line : List Char) : Option (List Char) := (strtok [' '] line).1

theorem parseCmd_first (line : List Char) : (parseCmd line).map Prod.fst = firstWord line := by
  unfold parseCmd firstWord
  cases line with
  | nil => rfl
  | cons c rest =>
    simp only [List.length_cons,strtoks]
    rcases strtok [' '] (c::rest) with ⟨word,left⟩
    cases word <;> rfl

theorem react_quits (line : List Char) :
    (react line).quits = (match firstWord line with
      | none => false
      | some cmd => decide (String.ofList cmd = "exit" ∨ String.ofList cmd = "q")) := by
  rw [← parseCmd_first,react]
  rcases parseCmd line with - | ⟨cmd,tokens⟩
  · rfl
  · exact dispatch_quits _ _

theorem firstWord_afterParse (line : List Char) : firstWord (afterParse line) = firstWord line := by
  have split := List.takeWhile_append_dropWhile (p := (· = ' ')) (l := line)
  have blanks : ∀ c ∈ line.takeWhile (· = ' '), c = ' ' := fun c member => by simpa using List.mem_takeWhile_imp member
  have same : line.dropWhile (· ∈ [' ']) = line.dropWhile (· = ' ') := by simp only [List.mem_singleton]
  unfold firstWord afterParse strtok
  rw [same]
  cases after : line.dropWhile (· = ' ') with
  | nil =>
    rw [after,List.append_nil] at split
    simp only [Option.getD_none,List.append_nil,split,same,after]
  | cons c rest =>
    have solid : c ≠ ' ' := by
      have head := List.head?_dropWhile_not (fun x => decide (x = ' ')) line
      rw [after] at head
      simpa using head
    have word : (c::rest).takeWhile (· ∉ [' ']) = c::rest.takeWhile (· ∉ [' ']) := by simp [solid]
    have skipped : (line.takeWhile (· = ' ') ++ (c::rest).takeWhile (· ∉ [' '])).dropWhile (· ∈ [' ']) =
        (c::rest).takeWhile (· ∉ [' ']) := by
      rw [List.dropWhile_append_of_pos (fun x member => by simp [blanks x member]),word]
      simp [solid]
    simp only [Option.getD_some,skipped]
    rw [word]
    refine congrArg some ?_
    rw [← word]
    refine List.takeWhile_eq_self_iff.mpr fun x member => ?_
    have other := List.mem_takeWhile_imp member
    exact other

theorem afterParse_subset (line : List Char) : afterParse line ⊆ line := by
  refine List.append_subset.mpr ⟨List.takeWhile_subset _,?_⟩
  unfold strtok
  cases after : line.dropWhile (· ∈ [' ']) with
  | nil => exact List.nil_subset line
  | cons c rest =>
    refine List.Subset.trans (List.takeWhile_subset _) ?_
    rw [← after]
    exact List.dropWhile_subset _

/-! A round of the loop. -/

def performed (w : World) (fuel : Nat) : List (List Char) → Session → List Command
  | [],_ => []
  | line::rest,s => (react line).calls ++ match (obey w fuel line).run s with
    | .done _ t => performed w fuel rest t
    | _ => []

structure Console.Quitless (c : Console) : Prop where
  calls : Command.exit ∉ c.calls
  line : ∀ line, c.line = some line → '\n' ∉ line ∧ (react line).quits = false

theorem quits_false {reaction : Reaction} (calm : reaction.quits = false) : Command.exit ∉ reaction.calls := by
  intro member
  cases reaction with
  | call command =>
    obtain rfl := List.mem_singleton.mp member
    cases calm
  | complain text => exact absurd member List.not_mem_nil
  | ignore => exact absurd member List.not_mem_nil

theorem obey_calm {w : World} {fuel : Nat} {line : List Char} {s t : Session}
    (ok : (obey w fuel line).run s = .done () t) : (react line).quits = false := by
  unfold obey at ok
  cases reaction : react line with
  | call command =>
    cases command with
    | exit =>
      rw [reaction] at ok
      exact absurd ok (quit_never s t)
    | _ => rfl
  | _ => rfl

theorem react_afterParse (line : List Char) : (react (afterParse line)).quits = (react line).quits := by
  rw [react_quits,react_quits,firstWord_afterParse]

theorem takeLine_quitless {w : World} {fuel : Nat} {c : Console} {line : List Char} {t : Session}
    (quitless : c.Quitless) (clean : '\n' ∉ chomp line) (ok : (obey w fuel (chomp line)).run c.session = .done () t) :
    Console.Quitless {c with
      line := some (afterParse (chomp line))
      calls := c.calls ++ (react (chomp line)).calls
      session := t} := by
  have calm := obey_calm ok
  refine ⟨?_,?_⟩
  · simp only [List.mem_append,not_or]
    exact ⟨quitless.calls,quits_false calm⟩
  · rintro _ ⟨⟩
    exact ⟨fun member => clean (afterParse_subset _ member),(react_afterParse _).trans calm⟩

theorem round_line (w : World) (fuel : Nat) (mode : Mode) (c : Console) (text rest : List Char)
    (read : getline c.input = some (text,rest)) :
    ∃ prompts, c.round w fuel mode = Console.takeLine w fuel {c with input := rest,prompts := prompts} text := by
  cases mode with
  | script => exact ⟨c.prompts,by simp only [Console.round,read]⟩
  | interactive => exact ⟨c.prompts+1,by simp only [Console.round,read]⟩

theorem carried (w : World) (fuel : Nat) (mode : Mode) (lines : List (List Char)) (c : Console)
    (same : inputLines c.input = lines) (quitless : c.Quitless) :
    match (lines.forM (obey w fuel)).run c.session with
    | .done _ t => ∃ n d, c.rounds w fuel mode n = .again d ∧ d.input = [] ∧ d.session = t ∧
        d.calls = c.calls ++ performed w fuel lines c.session ∧ d.Quitless
    | .exited code t => ∃ n, c.rounds w fuel mode n = .ended code (c.calls ++ performed w fuel lines c.session) t
    | .waiting => ∃ n, c.rounds w fuel mode n = .waiting (c.calls ++ performed w fuel lines c.session) := by
  induction lines generalizing c with
  | nil =>
    have empty : c.input = [] := by
      cases read : getline c.input with
      | none => exact getline_none read
      | some text => simp [(getline_lines c.input text.1 text.2 read).1] at same
    exact ⟨0,c,rfl,empty,rfl,by simp [performed],quitless⟩
  | cons line lines ih =>
    cases read : getline c.input with
    | none =>
      simp [getline_none read,inputLines] at same
    | some found =>
      obtain ⟨text,rest⟩ := found
      obtain ⟨lines_eq,_⟩ := getline_lines c.input text rest read
      obtain ⟨rfl,later⟩ := List.cons.inj (lines_eq.symm.trans same)
      have clean := inputLines_clean c.input (chomp text) (by rw [lines_eq]; exact List.mem_cons_self ..)
      obtain ⟨prompts,round⟩ := round_line w fuel mode c text rest read
      have first : ((chomp text::lines).forM (obey w fuel)).run c.session =
          ((obey w fuel (chomp text)).run c.session).andThen fun _ => lines.forM (obey w fuel) := rfl
      rw [first,performed]
      cases ran : (obey w fuel (chomp text)).run c.session with
      | done value u =>
        have quitless' : Console.Quitless {c with input := rest,prompts := prompts} := ⟨quitless.calls,quitless.line⟩
        have next := ih _ later (takeLine_quitless quitless' clean ran)
        have step (n : Nat) : c.rounds w fuel mode (n+1) = Console.rounds w fuel mode n {c with
            input := rest
            line := some (afterParse (chomp text))
            prompts := prompts
            calls := c.calls ++ (react (chomp text)).calls
            session := u} := by
          simp only [Console.rounds,round,Console.takeLine,ran]
        rw [andThen_done]
        simp only [List.append_assoc] at next
        cases ended : (lines.forM (obey w fuel)).run u with
        | done value t =>
          rw [ended] at next
          obtain ⟨n,d,reached,rest⟩ := next
          exact ⟨n+1,d,(step n).trans reached,rest⟩
        | exited code t =>
          rw [ended] at next
          obtain ⟨n,reached⟩ := next
          exact ⟨n+1,(step n).trans reached⟩
        | waiting =>
          rw [ended] at next
          obtain ⟨n,reached⟩ := next
          exact ⟨n+1,(step n).trans reached⟩
      | exited code u =>
        refine ⟨1,?_⟩
        simp only [Console.rounds,round,Console.takeLine,ran,List.append_nil]
      | waiting =>
        refine ⟨1,?_⟩
        simp only [Console.rounds,round,Console.takeLine,ran,List.append_nil]

/-- At the end of standard input no round leads to a quit. -/
theorem stale_never_quits (w : World) (fuel n : Nat) (c : Console) (empty : c.input = []) (quitless : c.Quitless)
    (code : Nat) (calls : List Command) (t : Session) (ended : c.rounds w fuel .interactive n = .ended code calls t) :
    Command.exit ∉ calls := by
  induction n generalizing c with
  | zero => cases ended
  | succ n ih =>
    have read : getline c.input = none := by rw [empty]; rfl
    cases buffer : c.line with
    | none => simp [Console.rounds,Console.round,read,buffer] at ended
    | some line =>
      obtain ⟨clean,calm⟩ := quitless.line line buffer
      have round : c.round w fuel .interactive = Console.takeLine w fuel {c with prompts := c.prompts+1} line := by
        simp only [Console.round,read,buffer]
      have kept : Console.Quitless {c with prompts := c.prompts+1} := ⟨quitless.calls,quitless.line⟩
      simp only [Console.rounds,round,Console.takeLine] at ended
      cases ran : (obey w fuel (chomp line)).run c.session with
      | done value u =>
        simp only [ran] at ended
        refine ih _ ?_ (takeLine_quitless kept ?_ ran) ended
        · exact empty
        · rw [chomp_clean clean]
          exact clean
      | exited code' u =>
        simp only [ran,Turn.ended.injEq] at ended
        rw [← ended.2.1,chomp_clean clean]
        simp only [List.mem_append,not_or]
        exact ⟨quitless.calls,quits_false calm⟩
      | waiting => simp [ran] at ended

/-! The two modes compared. -/

def Turn.final : Turn → Bool
  | .again _ => false
  | _ => true

/-- Both modes come to an end, and the same one: the same methods were called with the
same arguments, and the session and the exit code are the same. -/
def ModesAgree (w : World) (fuel : Nat) (s : Session) (input : List Char) : Prop :=
  ∃ turn, turn.final = true ∧ (∃ n, (Console.start s input).rounds w fuel .script n = turn) ∧
    ∃ n, (Console.start s input).rounds w fuel .interactive n = turn

theorem rounds_add (w : World) (fuel : Nat) (mode : Mode) (m n : Nat) (c : Console) :
    c.rounds w fuel mode (m+n) = match c.rounds w fuel mode m with
      | .again d => d.rounds w fuel mode n
      | turn => turn := by
  induction m generalizing c with
  | zero => rw [Nat.zero_add]; rfl
  | succ m ih =>
    rw [Nat.succ_add,Console.rounds,Console.rounds]
    cases c.round w fuel mode with
    | again d => exact ih d
    | _ => rfl

theorem rounds_final {w : World} {fuel : Nat} {mode : Mode} {c d : Console} {m n : Nat} {turn : Turn}
    (ended : c.rounds w fuel mode m = turn) (final : turn.final = true) (reached : c.rounds w fuel mode n = .again d) :
    d.rounds w fuel mode m = turn := by
  have later := rounds_add w fuel mode n m c
  rw [reached,Nat.add_comm n m,rounds_add,ended] at later
  cases turn with
  | again => cases final
  | _ => exact later.symm

theorem start_quitless (s : Session) (input : List Char) : (Console.start s input).Quitless :=
  ⟨List.not_mem_nil,fun line impossible => by cases impossible⟩

theorem quit_exits (s : Session) : ∃ t, quit.run s = .exited 0 t := by
  simp only [quit,bind_run,read_run,andThen_done,ite_run]
  split
  · exact ⟨_,rfl⟩
  · exact ⟨_,rfl⟩

theorem exhausted_disagrees {w : World} {fuel : Nat} {s t : Session} {input : List Char}
    (ok : ((inputLines input).forM (obey w fuel)).run s = .done () t) : ¬ ModesAgree w fuel s input := by
  rintro ⟨turn,final,⟨m,scripted⟩,k,typed⟩
  have quitless := start_quitless s input
  have script := carried w fuel .script (inputLines input) (Console.start s input) rfl quitless
  have interactive := carried w fuel .interactive (inputLines input) (Console.start s input) rfl quitless
  simp only [Console.start,ok] at script interactive
  obtain ⟨n₁,d₁,reached₁,empty₁,_,_,_⟩ := script
  obtain ⟨n₂,d₂,reached₂,empty₂,_,_,stale⟩ := interactive
  obtain ⟨u,exits⟩ := quit_exits d₁.session
  have read : getline d₁.input = none := by rw [empty₁]; rfl
  have last : d₁.rounds w fuel .script 1 = .ended 0 (d₁.calls ++ [.exit]) u := by
    simp only [Console.rounds,Console.round,read,exits]
  have whole : (Console.start s input).rounds w fuel .script (n₁+1) = .ended 0 (d₁.calls ++ [.exit]) u := by
    rw [rounds_add]
    simp only [Console.start,reached₁,last]
  have same : turn = .ended 0 (d₁.calls ++ [.exit]) u := by
    have one := rounds_add w fuel .script m (n₁+1) (Console.start s input)
    have two := rounds_add w fuel .script (n₁+1) m (Console.start s input)
    rw [Nat.add_comm,two,whole,scripted] at one
    cases turn with
    | again => cases final
    | _ => exact one.symm
  have ended := rounds_final typed final reached₂
  rw [same] at ended
  exact stale_never_quits w fuel k d₂ empty₂ stale 0 _ u ended
    (List.mem_append_right _ (List.mem_singleton_self _))

/-- Feeding an input as a script or through standard input comes to the same exactly
when some line of it ends the debugger or never returns. -/
theorem modes_agree_iff (w : World) (fuel : Nat) (s : Session) (input : List Char) :
    ModesAgree w fuel s input ↔ ∀ t, ((inputLines input).forM (obey w fuel)).run s ≠ .done () t := by
  constructor
  · intro agree t ok
    exact exhausted_disagrees ok agree
  · intro unfinished
    have ends (mode : Mode) := carried w fuel mode (inputLines input) (Console.start s input) rfl (start_quitless s input)
    simp only [Console.start] at ends
    cases ran : ((inputLines input).forM (obey w fuel)).run s with
    | done value t => exact absurd ran (unfinished t)
    | exited code t =>
      simp only [ran] at ends
      exact ⟨_,rfl,ends .script,ends .interactive⟩
    | waiting =>
      simp only [ran] at ends
      exact ⟨_,rfl,ends .script,ends .interactive⟩

theorem typed_input_never_ends : ¬ ModesAgree crashing 9 freshSession "list\n".toList := by
  have ok : ((inputLines "list\n".toList).forM (obey crashing 9)).run freshSession = .done () freshSession := rfl
  exact exhausted_disagrees ok

end Unixprog.Sdb
