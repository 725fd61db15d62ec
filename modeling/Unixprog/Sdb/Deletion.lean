import Unixprog.Sdb.Main
import Unixprog.Sdb.Order
import Unixprog.Sdb.Returns

/-! The delete command, from the text of its argument to the list that is printed next. -/
namespace Unixprog.Sdb
open Words CStrings Runs

def deleteLine (token : List Char) : List Char := "delete ".toList ++ token

def rowsOf (addrs : List Word) : List Message := addrs.zipIdx.map fun (addr,counter) => .listRow counter addr

theorem list_prints (s : Session) : list.run s = .done () {s with out := s.out ++ rowsOf (s.sdb.addrList.toList.map Prod.fst)} := by
  have rows : rowsOf (s.sdb.addrList.toList.map Prod.fst) =
      s.sdb.addrList.toList.zipIdx.map fun row => .listRow row.2 row.1.1 := by
    simp only [rowsOf,List.zipIdx_map,List.map_map]
    rfl
  rw [rows]
  exact forM_say (fun row => .listRow row.2 row.1.1) s.sdb.addrList.toList.zipIdx s

def Names (list : AddrList) (token : List Char) (k : Nat) : Prop := numeral token = some k ∧ k < list.size

/-- A numeral deletes the address printed beside it, anything else nothing. -/
structure DeletesListed (w : World) (fuel : Nat) (s : Session) (token : List Char) : Prop where
  named : ∀ k, Names s.sdb.addrList token k → ∃ t addr, (obey w fuel (deleteLine token)).run s = .done () t ∧
    (s.sdb.addrList.toList.map Prod.fst)[k]? = some addr ∧ t.sdb.addrList = s.sdb.addrList.erase addr ∧
    ∃ u, list.run t = .done () u ∧ u.out = t.out ++ rowsOf ((s.sdb.addrList.toList.map Prod.fst).eraseIdx k)
  other : (∀ k, ¬ Names s.sdb.addrList token k) → ∃ t, (obey w fuel (deleteLine token)).run s = .done () t ∧
    t.sdb.addrList = s.sdb.addrList ∧ t.process = s.process

def Writable (s : Session) (addr : Word) : Prop := ∃ c, s.process = .stopped s.sdb.pid c ∧ Mapped c.mem addr

theorem react_delete {token : List Char} (given : token ≠ []) (word : ' ' ∉ token) :
    react (deleteLine token) = .call (.delete (atoi token)) := by
  have whole : (strtok [' '] token).1 = some token := strtok_whole given fun c member space => by
    rw [List.mem_singleton] at space
    exact word (space ▸ member)
  have first : strtok [' '] (deleteLine token) = (some "delete".toList,token) := rfl
  obtain ⟨rest,tokens⟩ : ∃ rest, strtoks [' '] (token.length+5+1) token = token::rest := by
    rw [strtoks]
    cases cut : strtok [' '] token with
    | mk found rest =>
      rw [cut] at whole
      subst whole
      exact ⟨_,rfl⟩
  have length : (deleteLine token).length = token.length+5+1+1 := by
    unfold deleteLine
    simp
  have parsed : parseCmd (deleteLine token) = some ("delete".toList,token::rest) := by
    rw [parseCmd,length,strtoks,first]
    simp only [tokens]
  rw [react,parsed]
  rfl

section Delete
variable {w : World} {s t : Session}

theorem found_keys {list : AddrList} {k : Nat} {addr value : Word} (found : list.toList[k]? = some (addr,value)) :
    (list.toList.map Prod.fst)[k]? = some addr := by
  rw [List.getElem?_map,found]
  rfl

theorem found_listed {list : AddrList} {k : Nat} {addr : Word} (found : (list.toList.map Prod.fst)[k]? = some addr) :
    addr ∈ list := (mem_keys list addr).mp (List.mem_of_getElem? found)

theorem erase_keys {list : AddrList} {k : Nat} {addr : Word} (found : (list.toList.map Prod.fst)[k]? = some addr) :
    (list.erase addr).toList.map Prod.fst = (list.toList.map Prod.fst).eraseIdx k := by
  have ordered := keys_ascending list
  have distinct : (list.toList.map Prod.fst).Nodup := ordered.imp fun less => by bv_omega
  obtain ⟨bound,same⟩ := List.getElem?_eq_some_iff.mp found
  have without : (list.toList.map Prod.fst).eraseIdx k = (list.toList.map Prod.fst).erase addr := by
    rw [← same,distinct.erase_getElem]
  refine List.Perm.eq_of_pairwise (fun a b _ _ less more => by bv_omega) (keys_ascending _)
    (ordered.sublist (List.eraseIdx_sublist _ _)) ?_
  have distinct' : ((list.erase addr).toList.map Prod.fst).Nodup := (keys_ascending _).imp fun less => by bv_omega
  rw [List.perm_ext_iff_of_nodup distinct' (distinct.sublist (List.eraseIdx_sublist _ _))]
  intro x
  rw [without,distinct.mem_erase_iff,mem_keys,mem_keys,Std.ExtTreeMap.mem_erase]
  refine and_congr_left fun _ => not_congr ?_
  rw [Std.LawfulEqCmp.compare_eq_iff_eq]
  exact eq_comm

theorem del_writable {id : Nat} {addr value : Word} (running : s.sdb.state = .running)
    (found : s.sdb.addrList.toList[id]? = some (addr,value)) (ok : (del id).run s = .done () t) :
    Writable s addr ∧ t.sdb.addrList = s.sdb.addrList.erase addr := by
  cases tracee : s.tracee with
  | none =>
    have positive : ¬ (id : Int) < 0 := by omega
    simp [del,running,positive,found,pokeText_childless tracee] at ok
  | some c =>
    have live := (tracee_some s c).mp tracee
    by_cases mapped : Mapped c.mem addr
    · rw [del_listed live running id addr value found mapped] at ok
      cases ok
      exact ⟨⟨c,live,mapped⟩,rfl⟩
    · exact absurd ok (del_unmapped live running id addr value found mapped t)

theorem del_outside (running : s.sdb.state = .running) {id : Int} (outside : id < 0 ∨ s.sdb.addrList.size ≤ id) :
    (del id).run s = .done () (s.say (.debug "the address is out of the range of the text segment")) := by
  simp only [del,bind_run,read_run,andThen_done,running,ne_eq,not_true_eq_false,if_false,ite_run]
  split
  next negative => rfl
  next positive =>
    have beyond : s.sdb.addrList.toList[id.toNat]? = none := by
      rw [List.getElem?_eq_none_iff,Std.ExtTreeMap.length_toList]
      omega
    simp only [beyond]
    rfl

theorem del_inside (id : Int) (positive : 0 ≤ id) (small : id < s.sdb.addrList.size) :
    ∃ addr value, s.sdb.addrList.toList[id.toNat]? = some (addr,value) := by
  have bound : id.toNat < s.sdb.addrList.toList.length := by
    rw [Std.ExtTreeMap.length_toList]
    omega
  exact ⟨_,_,List.getElem?_eq_getElem bound⟩

theorem erase_differs {list : AddrList} {addr : Word} (listed : addr ∈ list) : list.erase addr ≠ list := by
  intro same
  rw [← same,Std.ExtTreeMap.mem_erase] at listed
  exact listed.1 (Std.LawfulEqCmp.compare_eq_iff_eq.mpr rfl)

theorem erase_injective {list : AddrList} {addr other : Word} (listed : addr ∈ list)
    (same : list.erase other = list.erase addr) : other = addr := by
  by_contra apart
  have kept : addr ∈ list.erase other :=
    Std.ExtTreeMap.mem_erase.mpr ⟨fun equal => apart (Std.LawfulEqCmp.compare_eq_iff_eq.mp equal),listed⟩
  rw [same,Std.ExtTreeMap.mem_erase] at kept
  exact kept.1 (Std.LawfulEqCmp.compare_eq_iff_eq.mpr rfl)

theorem position_injective {list : AddrList} {j k : Nat} {addr : Word}
    (one : (list.toList.map Prod.fst)[j]? = some addr) (two : (list.toList.map Prod.fst)[k]? = some addr) : j = k := by
  have distinct : (list.toList.map Prod.fst).Nodup := (keys_ascending list).imp fun less => by bv_omega
  obtain ⟨bound,_⟩ := List.getElem?_eq_some_iff.mp one
  exact (List.getElem?_inj bound distinct).mp (one.trans two.symm)

end Delete

theorem del_number (running : s.sdb.state = .running) (id : Int) (inside : ¬ (id < 0 ∨ s.sdb.addrList.size ≤ id))
    (returned : (del id).run s = .done () t) : ∃ addr, (s.sdb.addrList.toList.map Prod.fst)[id.toNat]? = some addr ∧
      Writable s addr ∧ t.sdb.addrList = s.sdb.addrList.erase addr := by
  obtain ⟨positive,small⟩ := not_or.mp inside
  obtain ⟨addr,value,entry⟩ := del_inside (s := s) id (by omega) (by omega)
  obtain ⟨j,rfl⟩ : ∃ j : Nat, id = j := ⟨id.toNat,by omega⟩
  exact ⟨addr,found_keys entry,del_writable running entry returned⟩

/-- delete removes exactly what list shows if the id is an int, the word of its
address can be written, and a text that is no listed id is not read as one. -/
theorem deletes_listed_iff (w : World) (fuel : Nat) (s : Session) (running : s.sdb.state = .running) (token : List Char)
    (given : token ≠ []) (word : ' ' ∉ token) : DeletesListed w fuel s token ↔
    (∀ k, Names s.sdb.addrList token k → k < 2^31 ∧
      ∀ addr, (s.sdb.addrList.toList.map Prod.fst)[k]? = some addr → Writable s addr) ∧
    ((∀ k, ¬ Names s.sdb.addrList token k) → atoi token < 0 ∨ s.sdb.addrList.size ≤ atoi token) := by
  have obeyed : obey w fuel (deleteLine token) = del (atoi token) := by
    rw [obey,react_delete given word]
    rfl
  constructor
  · intro deletes
    constructor
    · intro k names
      obtain ⟨t,addr,returned,found,erased,_⟩ := deletes.named k names
      rw [obeyed] at returned
      have differs := erase_differs (found_listed found)
      -- del has erased the entry at the position that atoi gave, so this is k.
      by_cases outside : atoi token < 0 ∨ s.sdb.addrList.size ≤ atoi token
      · rw [del_outside running outside] at returned
        cases returned
        exact absurd erased.symm differs
      · obtain ⟨other,place,writable,erased'⟩ := del_number running _ outside returned
        rw [erased] at erased'
        obtain rfl := erase_injective (found_listed found) erased'.symm
        obtain rfl := position_injective place found
        refine ⟨by have := atoi_small token; omega,?_⟩
        intro addr again
        rw [found] at again
        cases again
        exact writable
    · intro unnamed
      by_contra inside
      obtain ⟨t,returned,same,_⟩ := deletes.other unnamed
      rw [obeyed] at returned
      obtain ⟨addr,place,_,erased⟩ := del_number running _ inside returned
      rw [erased] at same
      exact erase_differs (found_listed place) same
  · rintro ⟨named,unnamed⟩
    constructor
    case other =>
      intro unlisted
      rw [obeyed,del_outside running (unnamed unlisted)]
      exact ⟨_,rfl,rfl,rfl⟩
    case named =>
      intro k names
      obtain ⟨small,writable⟩ := named k names
      have number := atoi_numeral names.1 small
      obtain ⟨addr,value,entry⟩ := del_inside (s := s) (k : Int) (by omega) (by exact_mod_cast names.2)
      obtain ⟨c,live,mapped⟩ := writable addr (found_keys entry)
      refine ⟨_,addr,by rw [obeyed,number,del_listed live running k addr value entry mapped],found_keys entry,rfl,_,
        list_prints _,?_⟩
      change _ ++ rowsOf ((s.sdb.addrList.erase addr).toList.map Prod.fst) = _
      rw [erase_keys (found_keys entry)]
      rfl

def oneListed : List Command := [.load "a.out",.start,.break 0x1000]

/-- A text without digits deletes the first breakpoint. -/
theorem text_deletes_first : Reachable (debugger crashing) (sampleSession crashing oneListed) ∧
    (sampleSession crashing oneListed).sdb.state = .running ∧
    ¬ DeletesListed crashing 9 (sampleSession crashing oneListed) "x".toList := by
  refine ⟨sample_reachable _ _,rfl,fun deletes => ?_⟩
  have unnamed (k : Nat) : ¬ Names (sampleSession crashing oneListed).sdb.addrList "x".toList k := by
    rintro ⟨stands,_⟩
    rw [show numeral "x".toList = none from by decide] at stands
    cases stands
  obtain ⟨t,returned,same,_⟩ := deletes.other unnamed
  have gone : 0x1000 ∉ t.sdb.addrList := by
    cases returned
    decide
  rw [same] at gone
  exact gone (by decide)

theorem deletes_listed_iff_zero : DeletesListed crashing 9 (sampleSession crashing oneListed) "0".toList := by
  refine (deletes_listed_iff crashing 9 _ rfl "0".toList (by decide) (by decide)).mpr ⟨?_,?_⟩
  · rintro k ⟨stands,_⟩
    rw [show numeral "0".toList = some 0 from by decide] at stands
    cases stands
    refine ⟨by decide,fun addr found => ?_⟩
    obtain rfl : 0x1000 = addr := Option.some.inj ((by decide : _ = some (0x1000 : Word)).symm.trans found)
    exact ⟨_,rfl,by decide⟩
  · intro unnamed
    exact absurd ⟨by decide,by decide⟩ (unnamed 0)

end Unixprog.Sdb
