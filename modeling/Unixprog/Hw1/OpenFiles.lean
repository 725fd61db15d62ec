import Unixprog.Hw1.Rows
import Mathlib.Data.List.Forall2

/-! The rows of the open descriptors: what one entry of the fd directory does to the
loop of readFd, and which entries hide others. -/
namespace Unixprog.Hw1
open CStrings Aborts

/-- The target that readlink gives ends inside the buffer and is not empty. -/
def Entry.Named (e : Entry) : Prop := ∃ target, e.target = some target ∧ target ≠ [] ∧ target.length < MAX_NAME_SIZE

def Entry.Shown (e : Entry) : Prop :=
  e.Named ∧ e.stat.isSome ∧ e.name.length+1 < FD_SIZE ∧ ∃ link, e.lstat = some link ∧ (accessSuffix link.mode).isSome

/-- stat or lstat fails. -/
def Entry.Gone (e : Entry) : Prop :=
  e.Named ∧ (e.stat = none ∨ e.stat.isSome ∧ e.name.length < FD_SIZE ∧ e.lstat = none)

/-- What print_pinfo gets for a descriptor. -/
def fdRecord (p : Info) (name target : Str) (buffer : Stat) (suffix : Str) : Info :=
  let known := if (fdType buffer.mode).isSome then chomp target else []
  {p with
    fd := name ++ suffix
    type := (fdType buffer.mode).getD "unknown".toList
    inode := toInt buffer.ino
    name := if strstr known "(deleted)".toList then cutMarker known.length known else known}

section Stages
variable {w : World} {o : Options} (s : Scan)

theorem fdName_run {target : Str} (nonempty : target ≠ []) (fits : target.length < MAX_NAME_SIZE) :
    (fdName (some target)).run s = .returned () {s with p := {s.p with name := chomp target}} := by
  have whole : target.take MAX_NAME_SIZE = target := List.take_of_length_le (by omega)
  simp only [fdName,bind_run,setInfo_run,andThen_returned,whole,within_fits fits,if_neg nonempty]

theorem fdName_stops {e : Entry} (unnamed : ¬ e.Named) : ∃ why t, (fdName e.target).run s = .stopped why t := by
  simp only [fdName,bind_run,setInfo_run,andThen_returned]
  cases found : e.target with
  | none => exact ⟨_,_,rfl⟩
  | some target =>
    simp only [bind_run]
    by_cases fits : target.length < MAX_NAME_SIZE
    · have none : target = [] := by
        by_contra nonempty
        exact unnamed ⟨target,found,nonempty,fits⟩
      rw [none]
      exact ⟨_,_,rfl⟩
    · rw [within_over (by simp; omega)]
      exact ⟨_,_,rfl⟩

theorem fdMeta_run {name : Str} (fits : name.length < FD_SIZE) (buffer : Stat) : (fdMeta name buffer).run s =
    .returned () {s with p := {s.p with
      inode := toInt buffer.ino
      fd := name
      type := (fdType buffer.mode).getD "unknown".toList
      name := if (fdType buffer.mode).isSome then s.p.name else []}} := by
  simp only [fdMeta,bind_run,within_fits fits,andThen_returned,setInfo_run]
  cases fdType buffer.mode <;> rfl

theorem fdAccess_run {mode : BitVec 32} {suffix : Str} (letter : accessSuffix mode = some suffix)
    (fits : (s.p.fd ++ suffix).length < FD_SIZE) : (fdAccess mode).run s = .returned () {s with p := {s.p with
      fd := s.p.fd ++ suffix
      name := if strstr s.p.name "(deleted)".toList then cutMarker s.p.name.length s.p.name else s.p.name}} := by
  simp only [fdAccess,letter,bind_run,current_run,andThen_returned,within_fits fits,setInfo_run]

theorem accessSuffix_length {mode : BitVec 32} {suffix : Str} (letter : accessSuffix mode = some suffix) :
    suffix.length = 1 := by
  have letters := accessSuffix_letter letter
  simp only [List.mem_cons,List.not_mem_nil,or_false] at letters
  rcases letters with rfl | rfl | rfl <;> rfl

/-! One entry. -/

theorem fdEntry_record {e : Entry} {target suffix : Str} {buffer link : Stat} (read : e.target = some target)
    (nonempty : target ≠ []) (fits : target.length < MAX_NAME_SIZE) (found : e.stat = some buffer)
    (short : e.name.length+1 < FD_SIZE) (linked : e.lstat = some link)
    (letter : accessSuffix link.mode = some suffix) : (fdEntry w o e).run s =
      (printPinfo w o >>= fun _ => pure true).run {s with p := fdRecord s.p e.name target buffer suffix} := by
  have room : (e.name ++ suffix).length < FD_SIZE := by
    rw [List.length_append,accessSuffix_length letter]
    exact short
  rw [fdEntry,bind_run,read,fdName_run s nonempty fits,andThen_returned]
  simp only [found]
  rw [bind_run,fdMeta_run _ (by omega),andThen_returned]
  simp only [linked]
  rw [bind_run,fdAccess_run _ letter room,andThen_returned]
  rfl

theorem fdEntry_gone {e : Entry} (gone : e.Gone) : ∃ t, (fdEntry w o e).run s = .returned false t ∧
    t.handed = s.handed ∧ t.rows = s.rows := by
  obtain ⟨⟨target,read,nonempty,fits⟩,unknown⟩ := gone
  rw [fdEntry,bind_run,read,fdName_run s nonempty fits,andThen_returned]
  rcases unknown with none | ⟨found,short,unlinked⟩
  · simp only [none]
    exact ⟨_,rfl,rfl,rfl⟩
  · obtain ⟨buffer,found⟩ := Option.isSome_iff_exists.mp found
    simp only [found]
    rw [bind_run,fdMeta_run _ short,andThen_returned]
    simp only [unlinked]
    exact ⟨_,rfl,rfl,rfl⟩

theorem fdEntry_stops {e : Entry} (unshown : ¬ e.Shown) (present : ¬ e.Gone) :
    ∃ why t, (fdEntry w o e).run s = .stopped why t := by
  rw [fdEntry,bind_run]
  by_cases named : e.Named
  case neg =>
    obtain ⟨why,t,stopped⟩ := fdName_stops s named
    rw [stopped]
    exact ⟨why,t,rfl⟩
  obtain ⟨target,read,nonempty,fits⟩ := id named
  rw [read,fdName_run s nonempty fits,andThen_returned]
  cases found : e.stat with
  | none => exact absurd ⟨named,.inl found⟩ present
  | some buffer =>
    have statted : e.stat.isSome := by simp [found]
    simp only [bind_run]
    by_cases short : e.name.length < FD_SIZE
    case neg =>
      rw [fdMeta,bind_run,within_over short]
      exact ⟨_,_,rfl⟩
    rw [fdMeta_run _ short,andThen_returned]
    cases linked : e.lstat with
    | none => exact absurd ⟨named,.inr ⟨statted,short,linked⟩⟩ present
    | some link =>
      simp only [bind_run]
      cases letter : accessSuffix link.mode with
      | none =>
        simp only [fdAccess,letter]
        exact ⟨_,_,rfl⟩
      | some suffix =>
        have long : ¬ (e.name ++ suffix).length < FD_SIZE := by
          rw [List.length_append,accessSuffix_length letter]
          exact fun room => unshown ⟨named,statted,room,link,linked,by simp [letter]⟩
        simp only [fdAccess,letter,bind_run,current_run,andThen_returned]
        rw [within_over long]
        exact ⟨_,_,rfl⟩

end Stages

theorem fdRecord_fits {p : Info} {name target suffix : Str} {buffer : Stat} (fits : target.length < MAX_NAME_SIZE) :
    (fdRecord p name target buffer suffix).name.length < MAX_NAME_SIZE := by
  have shorter := chomp_length target
  have known : (if (fdType buffer.mode).isSome then chomp target else []).length < MAX_NAME_SIZE := by
    split
    next => omega
    next => simp [MAX_NAME_SIZE]
  dsimp only [fdRecord]
  generalize (if (fdType buffer.mode).isSome then chomp target else []) = shown at known ⊢
  split
  next => exact (cutMarker_length _ _).trans_lt known
  next => exact known

/-! The loop. -/

/-- A number whose readlink, stat and lstat succeed. -/
def Entry.alive (e : Entry) : Bool := isNum e.name && e.target.isSome && e.stat.isSome && e.lstat.isSome

/-- The row of the descriptor, by its number and by its file's inode. -/
def Describes (e : Entry) (p : Info) : Prop :=
  e.name <+: p.fd ∧ ∃ buffer, e.stat = some buffer ∧ p.inode = toInt buffer.ino

theorem Entry.Shown.alive {e : Entry} (shown : e.Shown) (digits : isNum e.name) : e.alive = true := by
  obtain ⟨⟨target,read,-,-⟩,found,-,link,linked,-⟩ := shown
  simp [Entry.alive,digits,read,found,linked]

theorem Entry.Gone.dead {e : Entry} (gone : e.Gone) : e.alive = false := by
  obtain ⟨-,none | ⟨-,-,none⟩⟩ := gone <;> simp [Entry.alive,none]

/-- From `s` the loop goes through the entries and hands over one record, printed if it
passes the filters, for each entry that is alive. -/
def Lists (w : World) (o : Options) (entries : List Entry) (s : Scan) : Prop :=
  ∃ new t, (fdEntries w o entries).run s = .returned () t ∧ t.handed = s.handed ++ new ∧
    t.rows = s.rows ++ (new.filter (passes w o)).map row ∧ List.Forall₂ Describes (entries.filter Entry.alive) new

def Spared : List Entry → Prop
  | [] => True
  | e::rest => if isNum e.name then e.Shown ∧ Spared rest ∨ e.Gone ∧ ∀ f ∈ rest, f.alive = false else Spared rest

section Loop
variable {w : World} {o : Options}

theorem fdEntry_shown (compile : o.Compile w) {e : Entry} (shown : e.Shown) (s : Scan) : ∃ p t,
    (fdEntry w o e).run s = .returned true t ∧ t.handed = s.handed ++ [p] ∧
      t.rows = s.rows ++ ([p].filter (passes w o)).map row ∧ Describes e p := by
  obtain ⟨⟨target,read,nonempty,fits⟩,found,short,link,linked,letter⟩ := shown
  obtain ⟨buffer,found⟩ := Option.isSome_iff_exists.mp found
  obtain ⟨suffix,letter⟩ := Option.isSome_iff_exists.mp letter
  let p := fdRecord s.p e.name target buffer suffix
  have printed := printPinfo_run (s := {s with p := p}) compile (fdRecord_fits fits)
  refine ⟨p,{s with p := p,handed := s.handed ++ [p],rows := s.rows ++ if passes w o p then [row p] else []},?_,rfl,?_,
    List.prefix_append _ _,buffer,found,rfl⟩
  · rw [fdEntry_record s read nonempty fits found short linked letter,bind_run,printed]
    rfl
  · by_cases passed : passes w o p = true <;> simp [passed]

theorem lists_spared (compile : o.Compile w) {entries : List Entry} (spared : Spared entries) (s : Scan) :
    Lists w o entries s := by
  induction entries generalizing s with
  | nil => exact ⟨[],s,rfl,by simp,by simp,.nil⟩
  | cons e rest ih =>
    unfold Spared at spared
    unfold Lists
    rw [fdEntries,ite_run]
    split at spared
    case isFalse other =>
      rw [if_neg other,List.filter_cons_of_neg (by simp [Entry.alive,other])]
      exact ih spared s
    case isTrue digits =>
      rw [if_pos digits,bind_run]
      rcases spared with ⟨shown,further⟩ | ⟨gone,dead⟩
      · obtain ⟨p,t,ok,handed,rows,describes⟩ := fdEntry_shown compile shown s
        obtain ⟨new,u,run,more,printed,related⟩ := ih further t
        refine ⟨p::new,u,?_,?_,?_,?_⟩
        · rw [ok]
          exact run
        · rw [more,handed,List.append_assoc,List.singleton_append]
        · rw [printed,rows,List.append_assoc,← List.map_append,← List.filter_append,List.singleton_append]
        · rw [List.filter_cons_of_pos (shown.alive digits)]
          exact .cons describes related
      · obtain ⟨t,ok,handed,rows⟩ := fdEntry_gone (w := w) (o := o) s gone
        refine ⟨[],t,?_,by simp [handed],by simp [rows],?_⟩
        · rw [ok]
          rfl
        · have none : (e::rest).filter Entry.alive = [] := by
            rw [List.filter_cons_of_neg (by simp [gone.dead])]
            exact List.filter_eq_nil_iff.mpr fun f member => by simp [dead f member]
          rw [none]
          exact .nil

/-- Where the entries are not spared, the listing ends or rows are missing. -/
theorem unspared_lost (compile : o.Compile w) {entries : List Entry} (hit : ¬ Spared entries) (s : Scan) :
    (∃ why t, (fdEntries w o entries).run s = .stopped why t) ∨
      ∃ new t, (fdEntries w o entries).run s = .returned () t ∧ t.handed = s.handed ++ new ∧
        new.length < (entries.filter Entry.alive).length := by
  induction entries generalizing s with
  | nil => exact absurd trivial hit
  | cons e rest ih =>
    unfold Spared at hit
    rw [fdEntries,ite_run]
    split at hit
    case isFalse other =>
      rw [if_neg other,List.filter_cons_of_neg (by simp [Entry.alive,other])]
      exact ih hit s
    case isTrue digits =>
      rw [if_pos digits,bind_run]
      by_cases shown : e.Shown
      · obtain ⟨p,t,ok,handed,-,-⟩ := fdEntry_shown compile shown s
        rw [ok]
        rcases ih (fun spared => hit (.inl ⟨shown,spared⟩)) t with stopped | ⟨new,u,run,more,fewer⟩
        · exact .inl stopped
        · refine .inr ⟨p::new,u,run,?_,?_⟩
          · rw [more,handed,List.append_assoc,List.singleton_append]
          · rw [List.filter_cons_of_pos (shown.alive digits)]
            simpa using fewer
      by_cases gone : e.Gone
      · obtain ⟨t,ok,handed,-⟩ := fdEntry_gone (w := w) (o := o) s gone
        obtain ⟨f,member,alive⟩ : ∃ f ∈ rest, f.alive = true := by
          by_contra none
          refine hit (.inr ⟨gone,fun f member => ?_⟩)
          simpa using fun alive => none ⟨f,member,alive⟩
        rw [ok]
        refine .inr ⟨[],t,rfl,by simp [handed],?_⟩
        exact List.length_pos_iff.mpr
          (List.ne_nil_of_mem (List.mem_filter.mpr ⟨List.mem_cons_of_mem _ member,alive⟩))
      · obtain ⟨why,t,stopped⟩ := fdEntry_stops (w := w) (o := o) s shown gone
        rw [stopped]
        exact .inl ⟨why,t,rfl⟩

theorem lists_iff (compile : o.Compile w) (entries : List Entry) (s : Scan) : Lists w o entries s ↔ Spared entries := by
  constructor
  · rintro ⟨new,t,ok,handed,-,related⟩
    by_contra hit
    rcases unspared_lost compile hit s with ⟨why,u,stopped⟩ | ⟨missing,u,run,less,fewer⟩
    · rw [ok] at stopped
      cases stopped
    · rw [ok] at run
      cases run
      have same := List.append_cancel_left (handed.symm.trans less)
      have length := related.length_eq
      rw [same] at length
      omega
  · exact fun spared => lists_spared compile spared s

/-- readFd hands over one record for each entry that is alive, in the order of the
directory, and main goes on with the processes that are left. -/
def ListsAlive (w : World) (o : Options) (x : Process) (dir : FdDir) (s : Scan) : Prop :=
  ∃ new t, (∀ rest, (readFd w o x >>= fun _ => listProcesses w o rest).run s = (listProcesses w o rest).run t) ∧
    t.handed = s.handed ++ new ∧ t.rows = s.rows ++ (new.filter (passes w o)).map row ∧
      List.Forall₂ Describes (dir.entries.filter Entry.alive) new

theorem readFd_lists_iff (x : Process) (dir : FdDir) (s : Scan) (compile : o.Compile w) (opened : x.fds = some dir) :
    ListsAlive w o x dir s ↔ dir.entered = true ∧ Spared dir.entries := by
  have goesOn (t : Scan) : (∀ rest, (readFd w o x >>= fun _ => listProcesses w o rest).run s =
      (listProcesses w o rest).run t) ↔ (readFd w o x).run s = .returned () t := by
    constructor
    · intro same
      obtain ⟨_,u,ran,ended⟩ := bind_returned (same [])
      cases ended
      exact ran
    · intro ran rest
      rw [bind_run,ran,andThen_returned]
  simp only [ListsAlive,goesOn]
  simp only [readFd,opened]
  cases entered : dir.entered with
  | false =>
    constructor
    · rintro ⟨new,t,ran,-⟩
      cases ran
    · rintro ⟨impossible,-⟩
      cases impossible
  | true => simpa [Lists] using lists_iff compile dir.entries s

def twoDescriptors (target : Option Str) : FdDir where
  entered := true
  entries :=
    [⟨"0".toList,target,some ⟨S_IFCHR,3,0⟩,some ⟨S_IRUSR,40,0⟩⟩,
      ⟨"1".toList,some "/dev/null".toList,some ⟨S_IFCHR,3,0⟩,some ⟨S_IWUSR,41,0⟩⟩]

def holding (dir : FdDir) : Process := {idle with fds := some dir}

theorem open_listed : ListsAlive noUsers noFilters (holding (twoDescriptors (some "/dev/tty".toList)))
    (twoDescriptors (some "/dev/tty".toList)) zeroes := by
  refine (readFd_lists_iff (holding (twoDescriptors (some "/dev/tty".toList))) _ zeroes (noFilters_compile noUsers)
    rfl).mpr ⟨rfl,?_⟩
  have first : Entry.Shown ⟨"0".toList,some "/dev/tty".toList,some ⟨S_IFCHR,3,0⟩,some ⟨S_IRUSR,40,0⟩⟩ :=
    ⟨⟨_,rfl,by decide,by decide⟩,rfl,by decide,_,rfl,by decide⟩
  have second : Entry.Shown ⟨"1".toList,some "/dev/null".toList,some ⟨S_IFCHR,3,0⟩,some ⟨S_IWUSR,41,0⟩⟩ :=
    ⟨⟨_,rfl,by decide,by decide⟩,rfl,by decide,_,rfl,by decide⟩
  rw [twoDescriptors,Spared,if_pos (by decide),Spared,if_pos (by decide)]
  exact .inl ⟨first,.inl ⟨second,trivial⟩⟩

/-- A descriptor that was closed behind readdir ends the program. -/
theorem closed_hides : ¬ ListsAlive noUsers noFilters (holding (twoDescriptors none)) (twoDescriptors none) zeroes := by
  rintro ⟨new,t,goesOn,-⟩
  have run : (readFd noUsers noFilters (holding (twoDescriptors none))).run zeroes = .stopped (.exited 1)
      {zeroes with complaints := [.failTo "readlink"]} := by rfl
  have same := goesOn []
  rw [bind_run,run] at same
  cases same

end Loop

/-! The marker of deleted files. -/

def unmarked (target : Str) : Str :=
  if " (deleted)".toList <:+ target then target.take (target.length-10) else target

/-- Whatever else is true of a descriptor of a kind that is listed by its name, a link
with this target is handed to print_pinfo under the target without the marker. -/
def NamesExactly (target : Str) : Prop :=
  ∀ w o (e : Entry) buffer link s, e.target = some target → e.stat = some buffer → (fdType buffer.mode).isSome →
    e.lstat = some link → (accessSuffix link.mode).isSome → e.name.length+1 < FD_SIZE →
      ∃ p, ((fdEntry w o e).run s).state.handed = s.handed ++ [p] ∧ p.name = unmarked target

def stripped (target : Str) : Str :=
  if strstr (chomp target) "(deleted)".toList then cutMarker (chomp target).length (chomp target) else chomp target

theorem unmarked_kept {target : Str} (plain : ¬ "(deleted)".toList <:+: target) : unmarked target = target := by
  rw [unmarked,if_neg]
  intro marked
  exact plain (((List.suffix_cons ' ' "(deleted)".toList).trans marked).isInfix)

theorem stripped_newline {target : Str} (newline : target.getLast? = some '\n') : stripped target ≠ unmarked target := by
  have whole : unmarked target = target := by
    rw [unmarked,if_neg]
    rintro ⟨front,rfl⟩
    simp at newline
  have nonempty : target ≠ [] := by
    rintro rfl
    cases newline
  have positive := List.length_pos_iff.mpr nonempty
  have shorter : (stripped target).length ≤ target.length-1 := by
    rw [stripped,chomp,if_pos newline]
    split <;> simp [cutMarker]
  intro same
  rw [same,whole] at shorter
  omega

theorem stripped_marked {target : Str} (fits : target.length < MAX_NAME_SIZE) (marked : "(deleted)".toList <:+: target) :
    cutMarker target.length target = unmarked target ↔ target = "(deleted)".toList := by
  have least := marked.length_le
  constructor
  · intro same
    by_contra other
    have more : 9 < target.length := by
      by_contra few
      exact other (marked.eq_of_length (by
        have nine : "(deleted)".toList.length = 9 := by decide
        omega)).symm
    have cut : (cutMarker target.length target).length = target.length-9 := by
      rw [cutMarker,List.length_take]
      simp only [MAX_NAME_SIZE] at fits
      omega
    rw [same,unmarked] at cut
    split at cut
    · rw [List.length_take] at cut
      omega
    · omega
  · rintro rfl
    decide

theorem stripped_iff {target : Str} (fits : target.length < MAX_NAME_SIZE) : stripped target = unmarked target ↔
    target.getLast? ≠ some '\n' ∧ (¬ "(deleted)".toList <:+: target ∨ target = "(deleted)".toList) := by
  by_cases newline : target.getLast? = some '\n'
  · exact ⟨fun same => absurd same (stripped_newline newline),fun holds => absurd newline holds.1⟩
  have whole : chomp target = target := if_neg newline
  by_cases marked : "(deleted)".toList <:+: target
  · rw [stripped,whole,if_pos ((strstr_iff _ _).mpr marked),stripped_marked fits marked]
    exact ⟨fun same => ⟨newline,.inr same⟩,fun holds => holds.2.resolve_left fun plain => plain marked⟩
  · rw [stripped,whole,if_neg (fun found => marked ((strstr_iff _ _).mp found)),unmarked_kept marked]
    exact ⟨fun _ => ⟨newline,.inl marked⟩,fun _ => rfl⟩

theorem fdEntry_hands {w : World} {o : Options} {e : Entry} {target suffix : Str} {buffer link : Stat} (s : Scan)
    (read : e.target = some target) (nonempty : target ≠ []) (fits : target.length < MAX_NAME_SIZE)
    (found : e.stat = some buffer) (short : e.name.length+1 < FD_SIZE) (linked : e.lstat = some link)
    (letter : accessSuffix link.mode = some suffix) : ((fdEntry w o e).run s).state.handed =
      s.handed ++ [fdRecord s.p e.name target buffer suffix] := by
  have hands := (printPinfo_hands w o {s with p := fdRecord s.p e.name target buffer suffix}).2
  rw [fdEntry_record s read nonempty fits found short linked letter,bind_run]
  cases ran : (printPinfo w o).run {s with p := fdRecord s.p e.name target buffer suffix} with
  | returned a t => simpa [ran] using hands
  | stopped why t => simpa [ran] using hands

theorem fdRecord_name {p : Info} {name target suffix : Str} {buffer : Stat} (kind : (fdType buffer.mode).isSome) :
    (fdRecord p name target buffer suffix).name = stripped target := by
  simp only [fdRecord,kind,if_true]
  rfl

theorem names_exactly_iff (target : Str) (fits : target.length < MAX_NAME_SIZE) : NamesExactly target ↔
    target ≠ [] ∧ target.getLast? ≠ some '\n' ∧ (¬ "(deleted)".toList <:+: target ∨ target = "(deleted)".toList) := by
  constructor
  · intro exact
    have short : "3".toList.length+1 < FD_SIZE := by decide
    obtain ⟨p,handed,named⟩ := exact noUsers noFilters ⟨"3".toList,some target,some ⟨S_IFREG,0,0⟩,some ⟨S_IRUSR,0,0⟩⟩
      ⟨S_IFREG,0,0⟩ ⟨S_IRUSR,0,0⟩ zeroes rfl rfl (by decide) rfl (by decide) short
    have nonempty : target ≠ [] := by
      rintro rfl
      cases handed
    refine ⟨nonempty,(stripped_iff fits).mp ?_⟩
    have letter : accessSuffix S_IRUSR = some "r".toList := by decide
    rw [fdEntry_hands zeroes rfl nonempty fits rfl short rfl letter] at handed
    have same := List.singleton_inj.mp (List.append_cancel_left handed)
    rw [← named,← same,fdRecord_name (by decide)]
  · rintro ⟨nonempty,holds⟩ w o e buffer link s read found kind linked letter short
    obtain ⟨suffix,letter⟩ := Option.isSome_iff_exists.mp letter
    refine ⟨_,fdEntry_hands s read nonempty fits found short linked letter,?_⟩
    rw [fdRecord_name kind]
    exact (stripped_iff fits).mpr holds

theorem middle_named : NamesExactly "/srv/(deletion)/a b".toList :=
  (names_exactly_iff "/srv/(deletion)/a b".toList (by decide)).mpr
    ⟨by decide,by decide,.inl fun marked => absurd ((strstr_iff _ _).mpr marked) (by decide)⟩

/-- The blank in front of the marker stays. -/
theorem blank_kept : ¬ NamesExactly "/tmp/a (deleted)".toList := by
  intro exact
  let e : Entry := ⟨"3".toList,some "/tmp/a (deleted)".toList,some ⟨S_IFREG,9,0⟩,some ⟨S_IRUSR,1,0⟩⟩
  obtain ⟨p,handed,named⟩ := exact noUsers noFilters e ⟨S_IFREG,9,0⟩ ⟨S_IRUSR,1,0⟩ zeroes rfl rfl (by decide) rfl
    (by decide) (by decide)
  have letter : accessSuffix S_IRUSR = some "r".toList := by decide
  rw [fdEntry_hands zeroes rfl (by decide) (by decide) rfl (by decide) rfl letter] at handed
  cases handed
  have kept : (fdRecord zeroes.p "3".toList "/tmp/a (deleted)".toList ⟨S_IFREG,9,0⟩ "r".toList).name =
      "/tmp/a ".toList := by decide
  rw [kept] at named
  revert named
  decide

end Unixprog.Hw1
