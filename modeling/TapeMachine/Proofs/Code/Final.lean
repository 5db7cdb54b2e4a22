/-
**Leaving out the idle ends.**

A finished text leaves out the idle ends of the regions that do without the stack, and every link
follows its partner to the new place.

* `Code.places`: where the instructions of a code are, once the idle ends before them are gone;
* `newPlaces_emit`: `Region.newPlaces` computes that;
* `dropFastEnds_emit`: so what becomes of the text of a code is its text without idle ends.
-/

import TapeMachine.Proofs.Behavior.Text

namespace TapeMachine

/-- The new places of the instructions of a code, if the first of them comes to stand at `base`. An
idle end counts as standing where the last instruction before it stands. -/
def Code.places (base : Nat) : Code → List Nat
  | empty => []
  | plain before _ => before.places base ++ [base + before.size false]
  | loop before body =>
    let start := base + before.size false
    before.places base ++ start :: (body.places (start + 1) ++ [start + 1 + body.size false])
  | region before fast body =>
    let start := base + before.size false
    before.places base ++ start ::
      (body.places (start + 1) ++ [start + body.size false + (regionEnd false fast 0).length])

theorem Code.length_places (base : Nat) (code : Code) :
    (code.places base).length = code.size true := by
  induction code generalizing base with
  | empty => rfl
  | plain before instruction ih => simp [places, size, ih]
  | loop before body ihBefore ihBody =>
    simp only [places, size, List.length_append, List.length_cons, List.length_nil, ihBefore, ihBody]
    omega
  | region before fast body ihBefore ihBody =>
    simp only [places, size, List.length_append, List.length_cons, List.length_nil, ihBefore, ihBody,
      regionEnd, Bool.true_or, if_true]
    omega

namespace Region

/-- A table of places for the instructions of a code. -/
theorem foldl_next_emit {code : Code} (unlinked : code.Unlinked) (base : Nat) (places : Array Nat)
    (kept : Nat) :
    (code.emit true base).foldl Places.next ⟨places, kept⟩ =
      ⟨places ++ (code.places kept).toArray, kept + code.size false⟩ := by
  induction code generalizing base places kept with
  | empty => simp [Code.emit, Code.places, Code.size]
  | plain before instruction ih =>
    have stays : instruction.opcode ≠ .popFast := by
      intro same
      have boundary := unlinked.2
      rw [same] at boundary
      cases boundary
    rw [Code.emit, List.foldl_append, ih unlinked.1]
    simp [Places.next, stays, Code.places, Code.size, Nat.add_assoc]
  | loop before body ihBefore ihBody =>
    rw [Code.emit, List.foldl_append, ihBefore unlinked.1, List.foldl_cons, List.foldl_append]
    simp only [Places.next, reduceCtorEq, if_false]
    rw [ihBody unlinked.2]
    simp only [List.foldl_cons, List.foldl_nil, Places.next, reduceCtorEq, if_false, Code.places,
      Code.size]
    congr 1
    · simp
    · omega
  | region before fast body ihBefore ihBody =>
    have place : kept + before.size false + 1 + body.size false =
        kept + before.size false + body.size false + 1 := by omega
    rw [Code.emit, List.foldl_append, ihBefore unlinked.1, List.foldl_cons, List.foldl_append]
    cases fast
    all_goals
      simp only [Code.regionStart, Places.next, reduceCtorEq, Bool.false_eq_true, if_false, if_true]
      rw [ihBody unlinked.2]
      simp only [Code.regionEnd, Bool.true_or, Bool.false_or, Bool.not_true, Bool.not_false,
        Bool.false_eq_true, if_true, if_false, List.foldl_cons, List.foldl_nil, Places.next,
        reduceCtorEq, Code.places, Code.size, List.length_nil, List.length_singleton]
      congr 1
    · simp [place]
    · omega
    · simp [place]
    · omega

theorem newPlaces_emit {code : Code} (unlinked : code.Unlinked) {text : Text}
    {last : Instruction} (stays : last.opcode ≠ .popFast)
    (written : text.toList = code.emit true 0 ++ [last]) :
    (newPlaces text).toList = code.places 0 ++ [code.size false] := by
  rw [newPlaces, ← Array.foldl_toList, written, List.foldl_append, foldl_next_emit unlinked]
  simp [Places.next, stays]

theorem relink_of_unlinked {instruction : Instruction} (places : Array Nat)
    (unlinked : instruction.opcode.isBoundary = false) :
    relink places instruction = .ok instruction := by
  rw [relink, unlinked]
  rfl

theorem relink_of_boundary {instruction : Instruction} {places : Array Nat} {place : Nat}
    (boundary : instruction.opcode.isBoundary = true)
    (found : places[instruction.link]? = some place) :
    relink places instruction = .ok { instruction with link := place } := by
  rw [relink, if_pos boundary, found]

/-- Relinking concatenated lists. -/
theorem mapM_relink_append {places : Array Nat} {first second one two : List Instruction}
    (here : first.mapM (relink places) = .ok one) (there : second.mapM (relink places) = .ok two) :
    (first ++ second).mapM (relink places) = .ok (one ++ two) := by
  rw [List.mapM_append, here, there]
  rfl

theorem mapM_relink_cons {places : Array Nat} {first one : Instruction}
    {second two : List Instruction} (here : relink places first = .ok one)
    (there : second.mapM (relink places) = .ok two) :
    (first :: second).mapM (relink places) = .ok (one :: two) := by
  rw [List.mapM_cons, here]
  simp only [bind, Except.bind, there]
  rfl

/-- What stays of the text of a code is linked as its text without idle ends. -/
theorem mapM_relink_emit {code : Code} (unlinked : code.Unlinked) {places : Array Nat}
    {base kept : Nat} (carried : Carries places base (code.places kept)) :
    ((code.emit true base).filter (·.opcode ≠ .popFast)).mapM (relink places) =
      .ok (code.emit false kept) := by
  induction code generalizing base kept with
  | empty => rfl
  | plain before instruction ih =>
    have stays : instruction.opcode ≠ .popFast := by
      intro same
      have boundary := unlinked.2
      rw [same] at boundary
      cases boundary
    rw [Code.emit, List.filter_append]
    refine mapM_relink_append (ih unlinked.1 carried.append_left) ?_
    rw [List.filter_cons_of_pos (by simpa using stays)]
    exact mapM_relink_cons (relink_of_unlinked places unlinked.2) rfl
  | loop before body ihBefore ihBody =>
    have ring := carried.append_right
    rw [Code.length_places] at ring
    have inner := ring.tail.append_left
    have back := ring.tail.append_right
    rw [Code.length_places] at back
    rw [Code.emit, List.filter_append, List.filter_cons_of_pos (by simp), List.filter_append]
    refine mapM_relink_append (ihBefore unlinked.1 carried.append_left) (mapM_relink_cons ?_
      (mapM_relink_append (ihBody unlinked.2 inner) (mapM_relink_cons ?_ rfl)))
    · exact relink_of_boundary rfl back.getElem?
    · exact relink_of_boundary rfl ring.getElem?
  | region before fast body ihBefore ihBody =>
    have ring := carried.append_right
    rw [Code.length_places] at ring
    have inner := ring.tail.append_left
    have back := ring.tail.append_right
    rw [Code.length_places] at back
    rw [Code.emit, List.filter_append]
    refine mapM_relink_append (ihBefore unlinked.1 carried.append_left) ?_
    have early := ihBody unlinked.2 inner
    have ended : base + before.size true + body.size true + 1 =
        base + before.size true + 1 + body.size true := by omega
    have behind := (congrArg (places[·]?) ended).trans back.getElem?
    cases fast with
    | false =>
      rw [List.filter_cons_of_pos (by simp [Code.regionStart]), List.filter_append]
      exact mapM_relink_cons (relink_of_boundary rfl behind)
        (mapM_relink_append early (mapM_relink_cons (relink_of_boundary rfl ring.getElem?) rfl))
    | true =>
      have gone : (Code.regionEnd true true (base + before.size true)).filter
          (·.opcode ≠ .popFast) = [] := rfl
      rw [List.filter_cons_of_pos (by simp [Code.regionStart]), List.filter_append, gone,
        List.append_nil]
      refine mapM_relink_cons (relink_of_boundary rfl behind) ?_
      rw [early]
      exact congrArg Except.ok (List.append_nil _).symm

/-- A text without idle ends is its text without idle ends. -/
theorem emit_of_forall_ne {code : Code} {base : Nat}
    (without : ∀ instruction ∈ code.emit true base, instruction.opcode ≠ .popFast) :
    code.size true = code.size false ∧ code.emit true base = code.emit false base := by
  induction code generalizing base with
  | empty => exact ⟨rfl, rfl⟩
  | plain before instruction ih =>
    obtain ⟨size, same⟩ := ih fun other member => without other (List.mem_append_left _ member)
    exact ⟨congrArg (· + 1) size, congrArg (· ++ [instruction]) same⟩
  | loop before body ihBefore ihBody =>
    obtain ⟨size, same⟩ := ihBefore fun other member => without other (List.mem_append_left _ member)
    obtain ⟨inside, inner⟩ := ihBody fun other member => without other
      (List.mem_append_right _ (List.mem_cons_of_mem _ (List.mem_append_left _ member)))
    rw [size] at inner
    simp only [Code.size, Code.emit, size, inside, same, inner, and_self]
  | region before fast body ihBefore ihBody =>
    obtain ⟨size, same⟩ := ihBefore fun other member => without other (List.mem_append_left _ member)
    obtain ⟨inside, inner⟩ := ihBody fun other member => without other
      (List.mem_append_right _ (List.mem_cons_of_mem _ (List.mem_append_left _ member)))
    cases fast with
    | false =>
      rw [size] at inner
      simp only [Code.size, Code.emit, size, inside, same, inner, Code.regionEnd, Bool.not_false,
        Bool.or_true, and_self]
    | true =>
      refine absurd rfl (without { opcode := .popFast, link := base + before.size true } ?_)
      exact List.mem_append_right _ (List.mem_cons_of_mem _ (List.mem_append_right _
        (List.mem_singleton.mpr rfl)))

/-- **The finished text** of a code is its text without idle ends. -/
theorem dropFastEnds_emit {code : Code} (unlinked : code.Unlinked) {text : Text}
    {last : Instruction} (stays : last.opcode ≠ .popFast)
    (plain : last.opcode.isBoundary = false) (written : text.toList = code.emit true 0 ++ [last]) :
    ∃ final : Text, dropFastEnds text = .ok final ∧ final.toList = code.emit false 0 ++ [last] := by
  unfold dropFastEnds
  split
  · have table := newPlaces_emit unlinked stays written
    have carried : Carries (newPlaces text) 0 (code.places 0) := by
      rw [Carries, table, List.drop_zero]
      exact List.prefix_append _ _
    have rest : ([last].filter (·.opcode ≠ .popFast)).mapM (relink (newPlaces text)) =
        .ok [last] := by
      rw [List.filter_cons_of_pos (by simpa using stays)]
      exact mapM_relink_cons (relink_of_unlinked _ plain) rfl
    have relinked := mapM_relink_append (mapM_relink_emit unlinked carried) rest
    rw [← List.filter_append, ← written, ← Array.toList_filter, ← Array.toList_mapM] at relinked
    cases done : (text.filter (·.opcode ≠ .popFast)).mapM (relink (newPlaces text)) with
    | error fault =>
      rw [done] at relinked
      cases relinked
    | ok final =>
      rw [done] at relinked
      exact ⟨final, rfl, Except.ok.inj relinked⟩
  · next without =>
    refine ⟨text, rfl, ?_⟩
    rw [written, (emit_of_forall_ne fun instruction member same => without ?_).2]
    rw [← Array.any_toList, written, List.any_eq_true]
    exact ⟨instruction, List.mem_append_left _ member, decide_eq_true same⟩

end Region

end TapeMachine
