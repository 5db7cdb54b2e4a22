/-
**Linking the text of a region.**

`Region.link` finds the partners of the region ends in a text without links, and so gives the text of
the code, as it stands at its position.

* `Code.link_bare`: linking the instructions of a code gives its text.
-/

import TapeMachine.Proofs.Code.Reach

namespace TapeMachine

namespace Region

variable {base : Nat} {before behind : List Instruction} {instruction : Instruction}
  {waiting : List Nat}

theorem getElem?_toArray_append :
    (before ++ instruction :: behind).toArray[before.length]? = some instruction := by
  simp

theorem modify_append (change : Instruction → Instruction) :
    (before ++ instruction :: behind).toArray.modify before.length change =
      (before ++ change instruction :: behind).toArray := by
  apply Array.toList_inj.mp
  rw [Array.toList_modify, List.modify_eq_take_cons_drop (by simp)]
  simp

theorem next_other (opens : begins instruction.opcode = false)
    (closes : ends instruction.opcode = false) :
    Linking.next base ⟨(before ++ instruction :: behind).toArray, waiting⟩ before.length =
      ⟨(before ++ instruction :: behind).toArray, waiting⟩ := by
  simp only [Linking.next, getElem?_toArray_append, opens, closes, Bool.false_eq_true, if_false]

theorem next_begins (opens : begins instruction.opcode = true) :
    Linking.next base ⟨(before ++ instruction :: behind).toArray, waiting⟩ before.length =
      ⟨(before ++ instruction :: behind).toArray, before.length :: waiting⟩ := by
  simp only [Linking.next, getElem?_toArray_append, opens, if_true]

/-- The end of a region is linked to the innermost open beginning, and that to it. -/
theorem next_ends {outer inner : List Instruction} {first : Instruction}
    (opens : begins instruction.opcode = false) (closes : ends instruction.opcode = true) :
    Linking.next base
        ⟨(outer ++ first :: (inner ++ instruction :: behind)).toArray, outer.length :: waiting⟩
        (outer.length + 1 + inner.length) =
      ⟨(outer ++ { first with link := base + (outer.length + 1 + inner.length) } ::
        (inner ++ { instruction with link := base + outer.length } :: behind)).toArray, waiting⟩ := by
  have place (first : Instruction) :
      (outer ++ first :: inner).length = outer.length + 1 + inner.length := by
    simp only [List.length_append, List.length_cons]
    omega
  have shape (first last : Instruction) : outer ++ first :: (inner ++ last :: behind) =
      (outer ++ first :: inner) ++ last :: behind := by simp
  have found : (outer ++ first :: (inner ++ instruction :: behind)).toArray[
      outer.length + 1 + inner.length]? = some instruction := by
    rw [shape, ← place first, getElem?_toArray_append]
  have second (first : Instruction) (change : Instruction → Instruction) :
      (outer ++ first :: (inner ++ instruction :: behind)).toArray.modify
          (outer.length + 1 + inner.length) change =
        (outer ++ first :: (inner ++ change instruction :: behind)).toArray := by
    rw [shape, ← place first, modify_append, shape]
  simp only [Linking.next, found, opens, closes, Bool.false_eq_true, if_false, if_true]
  rw [modify_append, second]

end Region

/-- A region is linked behind the code in front of it. -/
theorem Code.foldl_next_ring {body : Code} {base : Nat} {start stop : Instruction}
    (opens : Region.begins start.opcode = true) (apart : Region.begins stop.opcode = false)
    (closes : Region.ends stop.opcode = true)
    (inside : ∀ (before behind : List Instruction) (waiting : List Nat),
      (List.range' before.length (body.size true)).foldl (Region.Linking.next base)
          ⟨(before ++ body.bare ++ behind).toArray, waiting⟩ =
        ⟨(before ++ body.emit true (base + before.length) ++ behind).toArray, waiting⟩)
    (before behind : List Instruction) (waiting : List Nat) :
    (before.length :: (List.range' (before.length + 1) (body.size true) ++
        [before.length + 1 + body.size true])).foldl (Region.Linking.next base)
        ⟨(before ++ start :: (body.bare ++ stop :: behind)).toArray, waiting⟩ =
      ⟨(before ++ { start with link := base + (before.length + 1 + body.size true) } ::
        (body.emit true (base + before.length + 1) ++
          { stop with link := base + before.length } :: behind)).toArray, waiting⟩ := by
  have entered : before.length + 1 = (before ++ [start]).length := by simp
  have shape (stretch rest : List Instruction) : before ++ start :: (stretch ++ rest) =
      before ++ [start] ++ stretch ++ rest := by simp
  have walked : List.foldl (Region.Linking.next base)
      ⟨(before ++ start :: (body.bare ++ stop :: behind)).toArray, before.length :: waiting⟩
      (List.range' (before.length + 1) (body.size true)) =
        ⟨(before ++ start :: (body.emit true (base + before.length + 1) ++ stop :: behind)).toArray,
          before.length :: waiting⟩ := by
    rw [shape, entered, inside, shape, ← entered, Nat.add_assoc]
  rw [List.foldl_cons, Region.next_begins opens, List.foldl_append, walked]
  simp only [List.foldl_cons, List.foldl_nil]
  rw [← length_emit true (base + before.length + 1) body, Region.next_ends apart closes]

/-- Linking the instructions of a code gives its text, wherever the code stands. -/
theorem Code.foldl_next_bare {inner : Bool} {code : Code} (straight : code.Straight inner) (base : Nat)
    (before behind : List Instruction) (waiting : List Nat) :
    (List.range' before.length (code.size true)).foldl (Region.Linking.next base)
        ⟨(before ++ code.bare ++ behind).toArray, waiting⟩ =
      ⟨(before ++ code.emit true (base + before.length) ++ behind).toArray, waiting⟩ := by
  induction code generalizing inner before behind waiting with
  | empty => rfl
  | plain code instruction ih =>
    obtain ⟨early, opcode, sound⟩ := straight
    have range : List.range' before.length ((code.plain instruction).size true) =
        List.range' before.length (code.size true) ++ [before.length + code.size true] :=
      List.range'_1_concat
    have others : Region.begins instruction.opcode = false ∧
        Region.ends instruction.opcode = false := by
      revert opcode
      cases inner <;> cases instruction.opcode <;> decide
    have place : before.length + code.size true =
        (before ++ code.emit true (base + before.length)).length := by simp
    rw [range, List.foldl_append, bare_plain sound.unlinked]
    rw [show before ++ (code.bare ++ [instruction]) ++ behind =
      before ++ code.bare ++ instruction :: behind by simp, ih early]
    simp only [List.foldl_cons, List.foldl_nil]
    rw [place, Region.next_other others.1 others.2, emit]
    simp
  | loop before body _ _ => exact straight.elim
  | region code fast body ihBefore ihBody =>
    obtain ⟨early, -, -, inside, -, -⟩ := straight
    have one : (regionEnd true fast 0).length = 1 := rfl
    have range : List.range' before.length ((code.region fast body).size true) =
        List.range' before.length (code.size true) ++ (before.length + code.size true) ::
          (List.range' (before.length + code.size true + 1) (body.size true) ++
            [before.length + code.size true + 1 + body.size true]) := by
      rw [size, one, show code.size true + body.size true + 1 + 1 =
        code.size true + (body.size true + 1 + 1) by omega, ← List.range'_append_1,
        List.range'_succ, List.range'_1_concat]
    have outer : before.length + code.size true =
        (before ++ code.emit true (base + before.length)).length := by simp
    rw [range, List.foldl_append, bare_region]
    generalize start : ({ opcode := if fast then .pushFast else .push } : Instruction) = first
    generalize stop : ({ opcode := if fast then .popFast else .pop } : Instruction) = last
    have opens : Region.begins first.opcode = true := by
      rw [← start]
      cases fast <;> rfl
    have closes : Region.begins last.opcode = false ∧ Region.ends last.opcode = true := by
      rw [← stop]
      cases fast <;> exact ⟨rfl, rfl⟩
    have shape : before ++ (code.bare ++ first :: (body.bare ++ [last])) ++ behind =
        before ++ code.bare ++ first :: (body.bare ++ last :: behind) := by simp
    rw [shape, ihBefore early, outer, foldl_next_ring opens closes.1 closes.2 (ihBody inside)]
    have linked : regionStart fast (base + before.length + code.size true + body.size true +
        (regionEnd true fast (base + before.length + code.size true)).length) =
          { first with link := base +
            ((before ++ code.emit true (base + before.length)).length + 1 + body.size true) } := by
      rw [← start, length_regionEnd, one, ← outer, regionStart]
      congr 1
      omega
    have closed : regionEnd true fast (base + before.length + code.size true) =
        [{ last with link := base + (before ++ code.emit true (base + before.length)).length }] := by
      rw [← stop, ← outer, ← Nat.add_assoc]
      rfl
    rw [emit, linked, closed, ← outer]
    simp [Nat.add_assoc]

/-- Linking the instructions of a code gives its text. -/
theorem Code.link_bare {inner : Bool} {code : Code} (straight : code.Straight inner) (base : Nat) :
    Region.link base code.bare.toArray = (code.emit true base).toArray := by
  have linked := foldl_next_bare straight base [] [] []
  rw [Region.link, List.range_eq_range', List.size_toArray, length_bare]
  simp only [List.nil_append, List.append_nil, List.length_nil, Nat.add_zero] at linked
  rw [linked]

end TapeMachine
