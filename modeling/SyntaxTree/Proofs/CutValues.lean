import SyntaxTree.Proofs.CutScalars
import SyntaxTree.Proofs.FitsNode

/-!
Values that are cut off. Reading a cut text runs out of it: a scalar may be complete by then, but inside brackets
something must follow, so an array or an object always ends too early. Items and members in front of the cut are read
as they would be without it.
-/

namespace SyntaxTree.Json

section

variable {α β : Type}

/-- The outcome of a reader that came to the end of its text. -/
def RunsOut (o : Except Fault (α × List Char)) : Prop := o = .error .endOfText ∨ ∃ a, o = .ok (a, [])

theorem RunsOut.bind {o : Except Fault (α × List Char)} (h : RunsOut o) {f : α × List Char → Except Fault β}
    (hf : ∀ a, f (a, []) = .error .endOfText) : (o >>= f) = .error .endOfText := by
  rcases h with rfl | ⟨a, rfl⟩
  · rfl
  · exact hf a

theorem RunsOut.map {o : Except Fault (α × List Char)} (h : RunsOut o) (f : α → β) :
    RunsOut (do
      let (a, cs) ← o
      .ok (f a, cs)) := by
  rcases h with rfl | ⟨a, rfl⟩
  · exact .inl rfl
  · exact .inr ⟨f a, rfl⟩

/-- A reader takes a text: the whole of it in front of what cannot continue a number, and without its end it runs
out. Texts are shorter than `bound`. -/
structure Takes (read : Reader α) (bound : Nat) (text : List Char) (a : α) : Prop where
  whole : ∀ rest, Ends rest → (text ++ rest).length < bound → read (text ++ rest) = .ok (a, rest)
  cut : ∀ beginning, Cut beginning text → beginning.length < bound → RunsOut (read beginning)

section

variable {read : Reader α} {bound : Nat} {text : List Char} {a : α} (h : Takes read bound text a)

include h in
theorem Takes.map (f : α → β) : Takes (fun cs => do
    let (a, cs) ← read cs
    .ok (f a, cs)) bound text (f a) where
  whole := by
    intro rest hrest hbound
    rw [h.whole rest hrest hbound, ok_bind]
  cut := fun beginning hcut hbound => (h.cut beginning hcut hbound).map f

include h in
/-- A reader that goes past a colon first takes the colon as well. -/
theorem Takes.colon {step : Reader α} (hstep : ∀ cs, step (':' :: cs) = read cs)
    (hnil : step [] = .error .endOfText) : Takes step bound (':' :: text) a where
  whole := by
    intro rest hrest hbound
    rw [List.cons_append, hstep]
    exact h.whole rest hrest ((Nat.lt_succ_self _).trans hbound)
  cut := by
    intro beginning hcut hbound
    cases hcut with
    | before => exact .inl hnil
    | after _ hcut =>
      rw [hstep]
      exact h.cut _ hcut ((Nat.lt_succ_self _).trans hbound)

end

end

namespace Value

/-- What is written in front of a text does not depend on it. -/
theorem write_append (v : Value) (rest : List Char) : v.write rest = v.write [] ++ rest := by
  induction v using Value.induction generalizing rest with
  | null => rfl
  | bool value => cases value <;> rfl
  | integer n => simp [write, writeInteger]
  | float x => simp [write]
  | string text => simp [write, writeString]
  | array items ih =>
    have hitems : ∀ first rest, writeItems first items rest = writeItems first items [] ++ rest := by
      induction items with
      | nil => exact fun _ _ => rfl
      | cons item items ih' =>
        intro first rest
        rw [writeItems, writeItems, ih item List.mem_cons_self,
          ih item List.mem_cons_self (writeItems false items []),
          ih' (fun item h => ih item (List.mem_cons_of_mem _ h)) false rest]
        cases first <;> simp [writeComma]
    rw [write, write, hitems, hitems true [']']]
    simp
  | object members ih =>
    have hmembers : ∀ first rest, writeMembers first members rest = writeMembers first members [] ++ rest := by
      induction members with
      | nil => exact fun _ _ => rfl
      | cons member members ih' =>
        obtain ⟨name, v⟩ := member
        intro first rest
        rw [writeMembers, writeMembers, ih (name, v) List.mem_cons_self,
          ih (name, v) List.mem_cons_self (writeMembers false members []),
          ih' (fun member h => ih member (List.mem_cons_of_mem _ h)) false rest]
        cases first <;> simp [writeComma, writeString]
    rw [write, write, hmembers, hmembers true ['}']]
    simp

theorem write_eq_cons (v : Value) (rest : List Char) :
    ∃ c cs, v.write rest = c :: cs ∧ isBlank c = false ∧ c ≠ ']' := by
  rw [← write_spelling]
  exact v.spelling.write_eq_cons rest

theorem ends_cut_writeItems {items : List Value} {beginning : List Char}
    (h : Cut beginning (writeItems false items [']'])) : Ends beginning := by
  cases items with
  | nil =>
    cases h with
    | before => exact ends_nil
    | after _ h => cases h
  | cons item items =>
    rw [writeItems, writeComma, if_neg (by decide)] at h
    cases h with
    | before => exact ends_nil
    | after _ h => exact ends_cons (by decide) _

theorem ends_cut_writeMembers {members : List (String × Value)} {beginning : List Char}
    (h : Cut beginning (writeMembers false members ['}'])) : Ends beginning := by
  cases members with
  | nil =>
    cases h with
    | before => exact ends_nil
    | after _ h => cases h
  | cons member members =>
    rw [writeMembers, writeComma, if_neg (by decide)] at h
    cases h with
    | before => exact ends_nil
    | after _ h => exact ends_cons (by decide) _

end Value

/-! ### Loops -/

/-- Going to the next item of a cut array ends too early, or the cut comes later. -/
theorem nextElement_cut {first : Bool} {c : Char} {text beginning : List Char} (hblank : isBlank c = false)
    (hclose : c ≠ ']') (hcut : Cut beginning (writeComma first (c :: text))) :
    nextElement first beginning = .error .endOfText ∨
    ∃ beginning', nextElement first beginning = .ok (.item, c :: beginning') ∧ Cut beginning' text ∧
      beginning'.length < beginning.length := by
  cases first with
  | true =>
    rw [writeComma, if_pos rfl] at hcut
    cases hcut with
    | before => exact .inl rfl
    | @after _ beginning _ hcut =>
      refine .inr ⟨beginning, ?_, hcut, Nat.lt_succ_self _⟩
      simp only [nextElement, skipBlanks_cons hblank, if_neg hclose, if_true]
  | false =>
    rw [writeComma, if_neg (by decide)] at hcut
    cases hcut with
    | before => exact .inl rfl
    | after _ hcut =>
      cases hcut with
      | before => exact .inl rfl
      | @after _ beginning _ hcut =>
        refine .inr ⟨beginning, ?_, hcut, by simp only [List.length_cons]; omega⟩
        rw [nextElement, skipBlanks_cons (by decide)]
        simp only [show ¬(',' = ']') by decide, if_false, if_true, Bool.false_eq_true, skipBlanks_cons hblank,
          if_neg hclose]

/-- Going to the next member of a cut object ends too early, or the cut comes later. -/
theorem nextMember_cut {first : Bool} {text beginning : List Char}
    (hcut : Cut beginning (writeComma first ('"' :: text))) :
    nextMember first beginning = .error .endOfText ∨
    ∃ beginning', nextMember first beginning = .ok (.item, beginning') ∧ Cut beginning' text ∧
      beginning'.length < beginning.length := by
  cases first with
  | true =>
    rw [writeComma, if_pos rfl] at hcut
    cases hcut with
    | before => exact .inl rfl
    | @after _ beginning _ hcut => exact .inr ⟨beginning, rfl, hcut, Nat.lt_succ_self _⟩
  | false =>
    rw [writeComma, if_neg (by decide)] at hcut
    cases hcut with
    | before => exact .inl rfl
    | after _ hcut =>
      cases hcut with
      | before => exact .inl rfl
      | @after _ beginning _ hcut =>
        exact .inr ⟨beginning, rfl, hcut, by simp only [List.length_cons]; omega⟩

theorem elements_cut {α : Type} {read : Reader α} {bound : Nat} {items : List Value}
    (hread : ∀ item ∈ items, ∃ a, Takes read bound (item.write []) a) {fuel : Nat} {first : Bool} {as : List α}
    {beginning : List Char} (hcut : Cut beginning (Value.writeItems first items [']']))
    (hfuel : beginning.length < fuel) (hbound : beginning.length < bound) :
    elements (collect read) fuel first as beginning = .error .endOfText := by
  induction items generalizing fuel first as beginning with
  | nil =>
    obtain ⟨fuel, rfl⟩ : ∃ k, fuel = k + 1 := ⟨fuel - 1, by omega⟩
    rw [Value.writeItems] at hcut
    cases hcut with
    | before => rfl
    | after _ hcut => cases hcut
  | cons item items ih =>
    obtain ⟨fuel, rfl⟩ : ∃ k, fuel = k + 1 := ⟨fuel - 1, by omega⟩
    obtain ⟨c, cs, hcons, hblank, hclose⟩ := item.write_eq_cons []
    obtain ⟨a, htakes⟩ := hread item List.mem_cons_self
    rw [Value.writeItems, Value.write_append, hcons, List.cons_append] at hcut
    rw [hcons] at htakes
    rw [elements]
    rcases nextElement_cut hblank hclose hcut with hnext | ⟨beginning', hnext, hcut', hlength⟩
    · rw [hnext]
      rfl
    rw [hnext, ok_bind]
    dsimp only
    obtain ⟨fuel, rfl⟩ : ∃ k, fuel = k + 1 := ⟨fuel - 1, by omega⟩
    rcases cut_append hcut' with hitem | ⟨beginning'', rfl, hrest⟩
    · have hout : RunsOut (collect read as (c :: beginning')) :=
        (htakes.cut _ (.after c hitem) (by rw [List.length_cons]; omega)).map (· :: as)
      exact hout.bind fun _ => rfl
    · rw [List.length_append] at hlength
      have hwhole := htakes.whole beginning'' (Value.ends_cut_writeItems hrest)
        (by simp only [List.length_append, List.length_cons]; omega)
      rw [List.cons_append] at hwhole
      rw [collect, hwhole, ok_bind, ok_bind]
      dsimp only
      exact ih (fun item hitem => hread item (List.mem_cons_of_mem _ hitem)) hrest (by omega) (by omega)

/-- A step takes the members one after the other, from one state to another. -/
inductive StepsOver {σ : Type} (step : String → σ → Reader σ) (bound : Nat) :
    σ → List (String × Value) → σ → Prop where
  | nil (state : σ) : StepsOver step bound state [] state
  | cons {name : String} {v : Value} {state next last : σ} {members : List (String × Value)}
    (h : Takes (step name state) bound (':' :: v.write []) next) (hrest : StepsOver step bound next members last) :
    StepsOver step bound state ((name, v) :: members) last

theorem objectMembers_cut {σ : Type} {step : String → σ → Reader σ} {bound : Nat} {state last : σ}
    {members : List (String × Value)} (h : StepsOver step bound state members last) {fuel : Nat} {first : Bool}
    {beginning : List Char} (hcut : Cut beginning (Value.writeMembers first members ['}']))
    (hfuel : beginning.length < fuel) (hbound : beginning.length < bound) :
    objectMembers step fuel first state beginning = .error .endOfText := by
  induction h generalizing fuel first beginning with
  | nil state =>
    obtain ⟨fuel, rfl⟩ : ∃ k, fuel = k + 1 := ⟨fuel - 1, by omega⟩
    rw [Value.writeMembers] at hcut
    cases hcut with
    | before => rfl
    | after _ hcut => cases hcut
  | @cons name v state next last members htakes hrest ih =>
    obtain ⟨fuel, rfl⟩ : ∃ k, fuel = k + 1 := ⟨fuel - 1, by omega⟩
    have htext : writeString name (':' :: v.write (Value.writeMembers false members ['}'])) =
        '"' :: ((spelledString name).writeOpened [] ++
          (':' :: v.write [] ++ Value.writeMembers false members ['}'])) := by
      rw [← write_spelledString, v.write_append]
      simp [StringSpelling.write, StringSpelling.writeOpened]
    rw [Value.writeMembers, htext] at hcut
    rw [objectMembers]
    rcases nextMember_cut hcut with hnext | ⟨beginning', hnext, hcut', hlength⟩
    · rw [hnext]
      rfl
    rw [hnext, ok_bind]
    dsimp only
    obtain ⟨fuel, rfl⟩ : ∃ k, fuel = k + 1 := ⟨fuel - 1, by omega⟩
    rcases cut_append hcut' with hname | ⟨beginning'', rfl, hvalue⟩
    · rw [readString_cut name hname]
      rfl
    have hname : readString .full ((spelledString name).writeOpened [] ++ beginning'') = .ok (name, beginning'') := by
      have hread := readString_write (spelledString name) beginning''
      rw [meaning_spelledString, leaving_ok] at hread
      rw [← hread]
      simp [StringSpelling.writeOpened]
    rw [List.length_append] at hlength
    rw [hname, ok_bind]
    dsimp only
    rcases cut_append hvalue with hvalue | ⟨rest, rfl, hmore⟩
    · exact (htakes.cut _ hvalue (by omega)).bind fun _ => rfl
    · rw [htakes.whole rest (Value.ends_cut_writeMembers hmore) (by omega), ok_bind]
      rw [List.length_append, List.length_cons] at hlength
      dsimp only
      exact ih hmore (by omega) (by omega)

/-! ### Values -/

theorem readToken_cut_word {v : Value} (hv : v = .null ∨ ∃ value, v = .bool value) {beginning : List Char}
    (hcut : Cut beginning (v.write [])) : readToken .full beginning = .error .endOfText := by
  have hword : ∀ {rest beginning : List Char} (value : Value), Cut beginning rest →
      readWord rest value beginning = .error .endOfText := by
    intro rest beginning value hcut
    rw [readWord, readLiteral_cut hcut]
    rfl
  rw [← Value.write_spelling] at hcut
  rcases hv with rfl | ⟨value, rfl⟩
  · cases hcut with
    | before => rfl
    | after _ hcut => exact hword .null hcut
  · cases value with
    | true =>
      cases hcut with
      | before => rfl
      | after _ hcut => exact hword (.bool true) hcut
    | false =>
      cases hcut with
      | before => rfl
      | after _ hcut => exact hword (.bool false) hcut

theorem readValue_of_token {bound room : Nat} {cs : List Char} {fault : Fault}
    (h : readToken .full cs = .error fault) : readValue bound room cs = .error fault := by
  rw [readValue, h]
  rfl

theorem readValue_cut_number {n : NumberSpelling} (h : n.IsModest) {bound : Nat} (room : Nat) {beginning : List Char}
    (hcut : Cut beginning (n.write [])) (hbound : beginning.length < bound) :
    RunsOut (readValue bound room beginning) := by
  rcases readToken_cut_number h hcut with hread | ⟨m, rfl, hfinite⟩
  · exact .inl (readValue_of_token hread)
  · right
    have hsize : (Spelling.number m).size < bound :=
      ((Spelling.number m).size_add_length_le []).trans_lt hbound
    have hread : readValue bound room (m.write []) = leaving [] m.parts.value :=
      readValue_write bound (.number m) room ends_nil hsize
    obtain ⟨v, hv, -⟩ := bind_eq_ok.mp (NumberText.numberOfValue_value m.wellFormed hfinite)
    exact ⟨v, by rw [hread, hv, leaving_ok]⟩

/-- Reading gives a value with what follows it left. -/
theorem readValue_value {v : Value} {room : Nat} (h : v.Fits room) {bound : Nat} {rest : List Char}
    (hrest : Ends rest) (hbound : (v.write [] ++ rest).length < bound) :
    readValue bound room (v.write [] ++ rest) = .ok (v, rest) := by
  rw [← v.write_append, ← v.write_spelling] at hbound ⊢
  have hsize := v.spelling.size_add_length_le rest
  rw [readValue_write bound v.spelling room hrest (by omega), v.meaning_spelling h.readable,
    within_of_le h.depth_le, leaving_ok]

theorem takes_collectMember {read : Reader Value} {bound : Nat} {text : List Char} {v : Value}
    (h : Takes read bound text v) (name : String) (members : List (String × Value)) :
    Takes (collectMember read name members) bound (':' :: text) ((name, v) :: members) :=
  (h.map fun v => (name, v) :: members).colon (fun _ => rfl) rfl

/-- A loop that collects members goes over all that are taken. -/
theorem stepsOver_collectMember {read : Reader Value} {bound : Nat} {members : List (String × Value)}
    (h : ∀ member ∈ members, Takes read bound (member.2.write []) member.2) (collected : List (String × Value)) :
    StepsOver (collectMember read) bound collected members (members.reverse ++ collected) := by
  induction members generalizing collected with
  | nil => exact .nil collected
  | cons member members ih =>
    rw [List.reverse_cons, List.append_assoc]
    exact .cons (takes_collectMember (h member List.mem_cons_self) member.1 collected)
      (ih (fun member hmember => h member (List.mem_cons_of_mem _ hmember)) _)

theorem takes_readValue {v : Value} {room : Nat} (h : v.Fits room) (bound : Nat) :
    Takes (readValue bound room) bound (v.write []) v := by
  refine ⟨fun rest hrest hbound => readValue_value h hrest hbound, ?_⟩
  intro beginning hcut hbound
  induction v using Value.induction generalizing room beginning with
  | null => exact .inl (readValue_of_token (readToken_cut_word (.inl rfl) hcut))
  | bool value => exact .inl (readValue_of_token (readToken_cut_word (.inr ⟨value, rfl⟩) hcut))
  | integer n =>
    rw [Value.write, ← write_spelledInteger] at hcut
    exact readValue_cut_number (isModest_spelledInteger h.readable) room hcut hbound
  | float x =>
    have hfinite : x.isFinite = true := h.readable
    rw [Value.write, ← x.write_spelling hfinite] at hcut
    exact readValue_cut_number (isModest_spelling hfinite) room hcut hbound
  | string text =>
    rw [Value.write, ← write_spelledString] at hcut
    exact .inl (readValue_of_token (readToken_cut_string text hcut))
  | array items ih =>
    obtain ⟨inner, rfl⟩ := exists_room h.depth_le
    rw [Value.fits_array] at h
    left
    cases hcut with
    | before => exact readValue_of_token rfl
    | @after _ beginning _ hcut =>
      have hshort : beginning.length < bound := (Nat.lt_succ_self _).trans hbound
      have hitems : ∀ item ∈ items, ∃ a, Takes (readValue bound inner) bound (item.write []) a := by
        intro item hitem
        have hfits := h item hitem
        exact ⟨item, fun rest hrest hbound => readValue_value hfits hrest hbound, fun beginning hcut hbound =>
          ih item hitem hfits beginning hcut hbound⟩
      rw [readValue, readToken_openArray, ok_bind]
      dsimp only
      rw [elements_cut hitems hcut hshort hshort]
      rfl
  | object members ih =>
    obtain ⟨inner, rfl⟩ := exists_room h.depth_le
    rw [Value.fits_object] at h
    left
    cases hcut with
    | before => exact readValue_of_token rfl
    | @after _ beginning _ hcut =>
      have hshort : beginning.length < bound := (Nat.lt_succ_self _).trans hbound
      have hmembers : ∀ member ∈ members, Takes (readValue bound inner) bound (member.2.write []) member.2 := by
        intro member hmember
        have hfits := h member hmember
        exact ⟨fun rest hrest hbound => readValue_value hfits hrest hbound, fun beginning hcut hbound =>
          ih member hmember hfits beginning hcut hbound⟩
      rw [readValue, readToken_openObject, ok_bind]
      dsimp only
      rw [objectMembers_cut (stepsOver_collectMember hmembers []) hcut hshort hshort]
      rfl

end SyntaxTree.Json
