import Unixprog.Logger.Descriptors

/-! What read, write, fread and fwrite show of the caller's buffer, and what read and
write read of it. -/
namespace Unixprog.Logger
open Words Plays

/-- The underlying call returns `result`, the log is descriptor `n`, the buffer holds `content`. -/
def Supplies (n result : Int) (buf : Word) (content : Nat → Byte) : Sigma Answer → Prop
  | ⟨.logger,a⟩ => a.value = some n
  | ⟨.real _,a⟩ => a.value = result
  | ⟨.peek address,a⟩ => a.value = some (content (address-buf).toNat)
  | _ => True

/-- The underlying call returns `result`; nothing is known of the buffer. -/
def Returns (result : Int) : Sigma Answer → Prop
  | ⟨.real _,a⟩ => a.value = result
  | _ => True

/-- The query reads no byte of the caller beyond the first `count` at `buf`. -/
def ReadsOnly (buf : Word) (count : Nat) : Query → Prop
  | .peek address => ∃ i < count, address = buf+BitVec.ofNat 64 i
  | _ => True

def previewHead (f : Fn) (name : Str) : Str := s!"[logger] {f.name}(".toList ++ quoted name ++ ", \"".toList

def previewTail (nbyte : Nat) (result : Int) : Str :=
  "\", ".toList ++ decimal nbyte ++ ") = ".toList ++ decimal result ++ "\n".toList

/-- The texts between the two that hold the quotes, if `count` bytes are shown. -/
def shownBytes (content : Nat → Byte) (count : Nat) : List Str := (List.range count).map fun i => printed (content i)

/-- Between the quotes stand the first bytes that the call transferred, at most 32,
and no other byte of the buffer is read. -/
structure Previews (call : Call) (buf : Word) (nbyte : Nat) (n result : Int) (content : Nat → Byte) : Prop where
  shown : ∀ s play value after, Played (call.perform.run s) play (.done value after) → Knows n s →
    (∀ x ∈ play, Supplies n result buf content x) →
    ∃ name, logged play = (previewHead call.fn name::shownBytes content (min 32 result.toNat) ++
      [previewTail nbyte result]).map (n,·)
  reads : ∀ s play ending, Played (call.perform.run s) play ending → (∀ x ∈ play, Returns result x) →
    ∀ x ∈ play, ReadsOnly buf result.toNat x.1

/-! What is read. -/

section Reads
variable {fair : Sigma Answer → Prop} {buf : Word} {count : Nat}

theorem reads_lookup (f : Fn) {rest : Op Int} (reads : Asks fair (ReadsOnly buf count) rest) :
    Asks fair (ReadsOnly buf count) (find_fptr f >>= fun _ => CHECKER f >>= fun _ => rest) := by
  refine asks_bind (asks_state fun s => ?_) fun _ => asks_bind (asks_state fun s => ?_) fun _ => reads
  · split
    · refine asks_query _ trivial fun handle _ => ?_
      split
      · refine asks_query _ trivial fun symbol _ => ?_
        split
        · exact asks_update _
        · exact asks_pure ()
      · exact asks_query _ trivial fun _ _ => asks_stop _
    · exact asks_pure ()
  · split
    · exact asks_query _ trivial fun _ _ => asks_stop _
    · exact asks_pure ()

theorem reads_FD2name (fd : Int) : Asks fair (ReadsOnly buf count) (FD2name fd) := by
  refine asks_query _ trivial fun pid _ => asks_query _ trivial ?_
  rintro ⟨value,errno⟩ _
  cases value with
  | none => exact asks_pure _
  | some name =>
    simp only
    split
    · exact asks_pure name
    · exact asks_stop _

theorem reads_log (text : Str) : Asks fair (ReadsOnly buf count) (log text) := by
  refine asks_bind (asks_state fun s => ?_) fun fd => asks_query _ trivial fun _ _ => asks_pure ()
  split
  · refine asks_query _ trivial ?_
    rintro ⟨value,errno⟩ _
    cases value with
    | none => exact asks_stop _
    | some fd => exact asks_bind (asks_update _) fun _ => asks_pure fd
  · exact asks_pure _

theorem reads_preview (nbyte : Nat) (result : Int) (bound : ∀ i < nbyte, i < asSize result → i < count) (left i : Nat) :
    Asks fair (ReadsOnly buf count) (preview buf nbyte result left i) := by
  induction left generalizing i with
  | zero => exact asks_pure ()
  | succ left ih =>
    unfold preview
    split
    next more =>
      refine asks_query _ ⟨i,bound i more.1 more.2,rfl⟩ ?_
      rintro ⟨value,errno⟩ _
      cases value with
      | none => exact asks_stop _
      | some c => exact asks_bind (reads_log _) fun _ => ih (i+1)
    next done => exact asks_pure ()

theorem reads_transfer {result : Int} (f : Fn) (fd : Int) (nbyte : Nat) (real : Call) (head : Str → Str)
    (tail : Str → Int → Str) (bound : ∀ i < nbyte, i < asSize result → i < count) :
    Asks (Returns result) (ReadsOnly buf count) (transfer f (FD2name fd) buf nbyte real head tail) := by
  refine reads_lookup f ?_
  change Asks _ _ (query (Query.real real) >>= fun reply => _)
  refine asks_query _ trivial fun reply returned => ?_
  have same : reply.value = result := returned
  rw [← same] at bound
  exact asks_bind (reads_FD2name fd) fun name => asks_bind (reads_log _) fun _ =>
    asks_bind (reads_preview nbyte _ bound 32 0) fun _ => asks_bind (reads_log _) fun _ => asks_pure _

end Reads

/-! What is shown. -/

section Shown
variable {α β : Type} {n result : Int} {buf : Word} {content : Nat → Byte}

/-- As `Writes`, where the answers of the underlying call and of the buffer are known too. -/
def Shows (n result : Int) (buf : Word) (content : Nat → Byte) (p : Op α) (texts : α → List Str → Prop) : Prop :=
  Ensures (Knows n) (Supplies n result buf content) p fun play value => ∃ ts, texts value ts ∧ logged play = ts.map (n,·)

theorem supplies_tells {x : Sigma Answer} (supplies : Supplies n result buf content x) : Tells n x := by
  obtain ⟨q,a⟩ := x
  cases q with
  | logger => exact supplies
  | _ => trivial

theorem Writes.shows {p : Op α} {texts : α → List Str → Prop} (writes : Writes n p texts) :
    Shows n result buf content p texts :=
  Ensures.fairer writes fun _ supplies => supplies_tells supplies

theorem shows_bind {first : Op β} {next : β → Op α} {middle : β → List Str → Prop} {texts : α → List Str → Prop}
    (one : Shows n result buf content first middle)
    (two : ∀ value before, middle value before →
      Shows n result buf content (next value) fun result ts => texts result (before ++ ts)) :
    Shows n result buf content (first >>= next) texts := by
  refine ensures_bind one ?_
  rintro head value ⟨before,told,same⟩
  refine Ensures.weaken (two value before told) ?_
  rintro tail result ⟨ts,told,rest⟩
  refine ⟨before ++ ts,told,?_⟩
  rw [logged_append,same,rest,List.map_append]

theorem shows_preview (nbyte : Nat) (small : nbyte < 2^64) (left i : Nat) :
    Shows n result buf content (preview buf nbyte result left i) fun _ ts =>
      ts = (List.range' i (min left (min nbyte (asSize result)-i))).map fun k => printed (content k) := by
  induction left generalizing i with
  | zero =>
    refine ensures_pure () ⟨[],?_,rfl⟩
    simp
  | succ left ih =>
    unfold preview
    split
    next more =>
      refine ensures_query _ ?_
      rintro ⟨value,errno⟩ supplied
      have here : (buf+BitVec.ofNat 64 i-buf).toNat = i := offset_add buf i (by omega)
      have told : value = some (content i) := by
        rw [← here]
        exact supplied
      subst value
      refine ensures_bind (writes_log n (printed (content i))).shows ?_
      rintro before _ ⟨_,rfl,wrote⟩
      refine Ensures.weaken (ih (i+1)) ?_
      rintro play _ ⟨ts,rfl,same⟩
      refine ⟨_,rfl,?_⟩
      have count : min (left+1) (min nbyte (asSize result)-i) = min left (min nbyte (asSize result)-(i+1))+1 := by omega
      change logged ([_] ++ (before ++ play)) = _
      rw [logged_append,logged_append,wrote,same,count,List.range'_succ]
      rfl
    next done =>
      refine ensures_pure () ⟨[],?_,rfl⟩
      have none : min (left+1) (min nbyte (asSize result)-i) = 0 := by omega
      rw [none]
      rfl

theorem shows_transfer (f : Fn) {named : Op Str} (quiet : Silent n named) (nbyte : Nat) (small : nbyte < 2^64)
    (real : Call) (head : Str → Str) (tail : Str → Int → Str) :
    Shows n result buf content (transfer f named buf nbyte real head tail) fun _ ts =>
      ∃ name, ts = head name::shownBytes content (min 32 (min nbyte (asSize result))) ++ [tail name result] := by
  have silent {α : Type} {p : Op α} (writes : Silent n p) : Shows n result buf content p fun _ ts => ts = [] := writes.shows
  unfold transfer
  rw [← then_assoc]
  refine shows_bind (silent (silent_lookup n f)) ?_
  rintro _ _ rfl
  change Shows _ _ _ _ (query (Query.real real) >>= fun reply => _) _
  refine ensures_query _ fun reply returned => ?_
  have same : reply.value = result := returned
  change Shows _ _ _ _ _ _
  rw [same]
  refine shows_bind (silent quiet) ?_
  rintro name _ rfl
  refine shows_bind (writes_log n (head name)).shows ?_
  rintro _ _ rfl
  refine shows_bind (shows_preview nbyte small 32 0) ?_
  rintro _ _ rfl
  refine Ensures.weaken (writes_last n (tail name result) result).shows ?_
  rintro play value ⟨ts,⟨rfl,rfl⟩,wrote⟩
  exact ⟨_,⟨name,by simp [shownBytes,List.range_eq_range']⟩,wrote⟩

end Shown

/-! The wrappers of read and write. -/

/-- The call is a read or a write of `nbyte` bytes at `buf`. -/
def Moves (call : Call) (buf : Word) (nbyte : Nat) : Prop :=
  ∃ fildes, call = .read fildes buf nbyte ∨ call = .write fildes buf nbyte

section Transfers
variable {call : Call} {buf : Word} {nbyte : Nat} {n result : Int} {content : Nat → Byte}

theorem moves_shows (moves : Moves call buf nbyte) (small : nbyte < 2^64) :
    Shows n result buf content call.perform fun _ ts => ∃ name,
      ts = previewHead call.fn name::shownBytes content (min 32 (min nbyte (asSize result))) ++
        [previewTail nbyte result] := by
  obtain ⟨fildes,rfl | rfl⟩ := moves
  · exact shows_transfer .read (silent_FD2name n fildes) nbyte small _ _ _
  · exact shows_transfer .write (silent_FD2name n fildes) nbyte small _ _ _

theorem moves_reads (moves : Moves call buf nbyte) {count : Nat} (bound : ∀ i < nbyte, i < asSize result → i < count) :
    Asks (Returns result) (ReadsOnly buf count) call.perform := by
  obtain ⟨fildes,rfl | rfl⟩ := moves
  · exact reads_transfer .read fildes nbyte _ _ _ bound
  · exact reads_transfer .write fildes nbyte _ _ _ bound

/-- A play of the wrapper in which every answer is as supplied. -/
def supplying (n result : Int) (buf : Word) (content : Nat → Byte) : (q : Query) → Answer q
  | .logger => ⟨some n,none⟩
  | .real _ => ⟨result,none⟩
  | .peek address => ⟨some (content (address-buf).toNat),none⟩
  | q => sampleAnswer q

theorem supplying_supplies (q : Query) : Supplies n result buf content ⟨q,supplying n result buf content q⟩ := by
  cases q with
  | logger => rfl
  | real call => rfl
  | peek address => rfl
  | _ => trivial

theorem supplying_benign (q : Query) : Benign ⟨q,supplying n result buf content q⟩ := by
  cases q with
  | dlopen => rfl
  | dlsym f => rfl
  | logger => rfl
  | realpath path => exact (by decide : "/f".toList.length < BUFSIZE)
  | readlink path =>
    rintro name same
    cases same
    decide
  | peek address => rfl
  | _ => trivial

theorem supplied_play (call : Call) (n result : Int) (buf : Word) (content : Nat → Byte) :
    ∃ play value after, Played (call.perform.run Statics.initial) play (.done value after) ∧
      ∀ x ∈ play, Supplies n result buf content x := by
  have goes := play_played (supplying n result buf content) (call.perform.run Statics.initial)
  have answers := play_answers (supplying n result buf content) (call.perform.run Statics.initial)
  obtain ⟨value,after,ending⟩ := perform_returns goes fun x member => by
    rw [answers x member]
    exact supplying_benign x.1
  rw [ending] at goes
  refine ⟨_,value,after,goes,fun x member => ?_⟩
  rw [answers x member]
  exact supplying_supplies x.1

theorem previews_counts (moves : Moves call buf nbyte) (small : nbyte < 2^64)
    (previews : Previews call buf nbyte n result content) : min 32 (min nbyte (asSize result)) = min 32 result.toNat := by
  obtain ⟨play,value,after,goes,supplied⟩ := supplied_play call n result buf content
  have knows : Knows n Statics.initial := .inl (by decide)
  obtain ⟨_,ts,⟨name,rfl⟩,wrote⟩ := moves_shows moves small Statics.initial play value after goes knows supplied
  obtain ⟨other,shown⟩ := previews.shown Statics.initial play value after goes knows supplied
  have lengths := congrArg List.length (wrote.symm.trans shown)
  simpa [shownBytes] using lengths

theorem asSize_counted (counted : 0 ≤ result ∧ result ≤ nbyte) (small : nbyte < 2^64) : asSize result = result.toNat := by
  rw [asSize,Int.emod_eq_of_lt counted.1 (by omega)]

theorem asSize_error : asSize (-1) = 2^64-1 := by decide

end Transfers

/-- The preview is right except for a failed call of a buffer that is not empty: the
result -1, compared as a size, lets the loop run on. -/
theorem previews_iff (call : Call) (buf : Word) (nbyte : Nat) (moves : Moves call buf nbyte) (small : nbyte < 2^64)
    (n result : Int) (possible : result = -1 ∨ 0 ≤ result ∧ result ≤ nbyte) (content : Nat → Byte) :
    Previews call buf nbyte n result content ↔ ¬ (result = -1 ∧ 0 < nbyte) := by
  constructor
  · rintro previews ⟨rfl,positive⟩
    have counts := previews_counts moves small previews
    rw [asSize_error] at counts
    have none : (-1 : Int).toNat = 0 := rfl
    rw [none] at counts
    omega
  · intro fine
    have exact : min nbyte (asSize result) = result.toNat := by
      obtain rfl | counted := possible
      · have empty : nbyte = 0 := by omega
        rw [empty]
        rfl
      · rw [asSize_counted counted small]
        omega
    constructor
    case shown =>
      intro s play value after goes knows supplied
      obtain ⟨_,ts,⟨name,rfl⟩,wrote⟩ := moves_shows moves small s play value after goes knows supplied
      rw [exact] at wrote
      exact ⟨name,wrote⟩
    case reads => exact moves_reads moves fun i inside below => by omega

theorem previews_iff_short : Previews (.read 3 0x1000 8) 0x1000 8 2 5 fun _ => 0x41#8 :=
  (previews_iff (.read 3 0x1000 8) 0x1000 8 ⟨3,.inl rfl⟩ (by decide) 2 5 (.inr ⟨by decide,by decide⟩) _).mpr (by decide)

theorem failed_read_previewed : ¬ Previews (.read 3 0x1000 8) 0x1000 8 2 (-1) fun _ => 0x41#8 := by
  intro previews
  have counts := previews_counts ⟨3,.inl rfl⟩ (by decide) previews
  rw [asSize_error] at counts
  cases counts

/-! The wrappers of fread and fwrite. -/

/-- The call is a fread or a fwrite of `nmemb` items of `size` bytes at `ptr`. -/
def Streams (call : Call) (ptr : Word) (size nmemb : Nat) : Prop :=
  ∃ stream, call = .fread ptr size nmemb stream ∨ call = .fwrite ptr size nmemb stream

def streamHead (f : Fn) : Str := s!"[logger] {f.name}(\"".toList

def streamTail (size nmemb : Nat) (name : Str) (result : Int) : Str :=
  "\", ".toList ++ decimal size ++ ", ".toList ++ decimal nmemb ++ ", ".toList ++ quoted name ++ ") = ".toList ++
    decimal result ++ "\n".toList

/-- The wrapper comes to its end, and between the quotes stand the first bytes of the
items that the call transferred, at most 32. -/
structure ItemPreviews (call : Call) (ptr : Word) (size nmemb : Nat) (n result : Int) (content : Nat → Byte) : Prop where
  shown : ∀ s play value after, Played (call.perform.run s) play (.done value after) → Knows n s →
    (∀ x ∈ play, Supplies n result ptr content x) →
    ∃ name, logged play = (streamHead call.fn::shownBytes content (min 32 (size*result.toNat)) ++
      [streamTail size nmemb name result]).map (n,·)
  returns : ∀ s play ending, Played (call.perform.run s) play ending → (∀ x ∈ play, Benign x) →
    ∃ value after, ending = .done value after

section Items
variable {call : Call} {ptr : Word} {size nmemb : Nat} {n result : Int} {content : Nat → Byte}

theorem streams_shows (streams : Streams call ptr size nmemb) (small : nmemb < 2^64) :
    Shows n result ptr content call.perform fun _ ts => ∃ name,
      ts = streamHead call.fn::shownBytes content (min 32 (min nmemb (asSize result))) ++
        [streamTail size nmemb name result] := by
  obtain ⟨stream,rfl | rfl⟩ := streams
  · exact shows_transfer .fread (silent_FILE2name n stream) nmemb small _ _ _
  · exact shows_transfer .fwrite (silent_FILE2name n stream) nmemb small _ _ _

theorem itemPreviews_counts (streams : Streams call ptr size nmemb) (small : nmemb < 2^64) :
    ItemPreviews call ptr size nmemb n result content ↔
      min 32 (min nmemb (asSize result)) = min 32 (size*result.toNat) := by
  constructor
  · intro previews
    obtain ⟨play,value,after,goes,supplied⟩ := supplied_play call n result ptr content
    have knows : Knows n Statics.initial := .inl (by decide)
    obtain ⟨_,ts,⟨name,rfl⟩,wrote⟩ := streams_shows streams small Statics.initial play value after goes knows supplied
    obtain ⟨other,shown⟩ := previews.shown Statics.initial play value after goes knows supplied
    have lengths := congrArg List.length (wrote.symm.trans shown)
    simpa [shownBytes] using lengths
  · intro counts
    constructor
    case shown =>
      intro s play value after goes knows supplied
      obtain ⟨_,ts,⟨name,rfl⟩,wrote⟩ := streams_shows streams small s play value after goes knows supplied
      rw [counts] at wrote
      exact ⟨name,wrote⟩
    case returns => exact fun s play ending goes benign => perform_returns goes benign

theorem counts_agree (size items : Nat) :
    min 32 items = min 32 (size*items) ↔ size = 1 ∨ items = 0 ∨ 32 ≤ items ∧ 0 < size := by
  obtain none | some := Nat.eq_zero_or_pos items
  · simp [none]
  obtain rfl | rfl | more : size = 0 ∨ size = 1 ∨ 2 ≤ size := by omega
  · simp only [Nat.zero_mul]
    omega
  · simp
  · have double := Nat.mul_le_mul_right items more
    omega

end Items

/-- The loop counts items where it shows bytes: the preview is right for items of one
byte, and where as many bytes are shown either way. -/
theorem item_previews_iff (call : Call) (ptr : Word) (size nmemb : Nat) (streams : Streams call ptr size nmemb)
    (small : nmemb < 2^64) (n result : Int) (possible : 0 ≤ result ∧ result ≤ nmemb) (content : Nat → Byte) :
    ItemPreviews call ptr size nmemb n result content ↔ size = 1 ∨ result = 0 ∨ 32 ≤ result ∧ 0 < size := by
  rw [itemPreviews_counts streams small,asSize_counted possible small]
  obtain ⟨items,rfl⟩ := Int.eq_ofNat_of_zero_le possible.1
  have all : min nmemb items = items := min_eq_right (by omega)
  rw [Int.toNat_natCast,all,counts_agree]
  omega

theorem item_previews_iff_bytes : ItemPreviews (.fwrite 0x1000 1 5 .stderr) 0x1000 1 5 2 5 fun _ => 0x41#8 :=
  (item_previews_iff (.fwrite 0x1000 1 5 .stderr) 0x1000 1 5 ⟨.stderr,.inr rfl⟩ (by decide) 2 5
    ⟨by decide,by decide⟩ _).mpr (.inl rfl)

/-- Two items of four bytes are shown as two bytes. -/
theorem items_cut : ¬ ItemPreviews (.fread 0x1000 4 2 (.file 0x2000)) 0x1000 4 2 2 2 fun _ => 0x41#8 := by
  intro previews
  have counts := (itemPreviews_counts ⟨.file 0x2000,.inl rfl⟩ (by decide)).mp previews
  exact absurd counts (by decide)

end Unixprog.Logger
