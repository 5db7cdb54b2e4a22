/-
**Regions.**

A region begins with `push` or `pushFast` and ends with `pop` or `popFast`; both ends link to each
other. The end of a region that was begun without the stack does nothing, so a finished text leaves
it out, and the links move to the new places of their partners.

* `link` links the ends of the regions in a piece of text that will stand at a given position;
* `size_link`: it moves nothing;
* `dropFastEnds` leaves the idle region ends out;
* `dropFastEnds_of_forall_ne`: where there are none, the text stays as it is.
-/

import TapeMachine.Edit

namespace TapeMachine.Region

/-- The opcode begins a region. -/
def begins (opcode : Opcode) : Bool :=
  opcode = .push || opcode = .pushFast

/-- The opcode ends a region. -/
def ends (opcode : Opcode) : Bool :=
  opcode = .pop || opcode = .popFast

/-! ### Linking -/

/-- A piece of text in which the regions up to some instruction are linked, and the beginnings of
those that are still open, innermost first. -/
structure Linking where
  piece : Array Instruction
  waiting : List Nat

/-- One more instruction of the piece is linked. An end without a beginning stays as it is. -/
def Linking.next (base : Nat) : Linking → Nat → Linking
  | ⟨piece, waiting⟩, place =>
    match piece[place]? with
    | none => ⟨piece, waiting⟩
    | some instruction =>
      if begins instruction.opcode then ⟨piece, place :: waiting⟩
      else if ends instruction.opcode then
        match waiting with
        | [] => ⟨piece, []⟩
        | first :: rest =>
          ⟨(piece.modify first ({ · with link := base + place })).modify place
            ({ · with link := base + first }), rest⟩
      else ⟨piece, waiting⟩

/-- Links the regions of a piece of text that stands at the position `base`. -/
def link (base : Nat) (piece : Array Instruction) : Array Instruction :=
  ((List.range piece.size).foldl (Linking.next base) ⟨piece, []⟩).piece

theorem size_next (base : Nat) (linking : Linking) (place : Nat) :
    (linking.next base place).piece.size = linking.piece.size := by
  rcases linking with ⟨piece, waiting⟩
  simp only [Linking.next]
  repeat' split
  all_goals simp

theorem size_link (base : Nat) (piece : Array Instruction) : (link base piece).size = piece.size := by
  suffices sized : ∀ (places : List Nat) (linking : Linking),
      (places.foldl (Linking.next base) linking).piece.size = linking.piece.size by
    exact sized _ _
  intro places
  induction places with
  | nil => intro linking; rfl
  | cons place rest ih => intro linking; rw [List.foldl_cons, ih, size_next]

/-! ### Leaving out the idle ends -/

/-- The new places of the instructions so far, and how many of them stay. -/
structure Places where
  places : Array Nat
  kept : Nat

/-- The place of one more instruction. An instruction that is left out counts as standing where the
last one that stays stands. -/
def Places.next : Places → Instruction → Places
  | ⟨places, kept⟩, instruction =>
    if instruction.opcode = .popFast then ⟨places.push (kept - 1), kept⟩
    else ⟨places.push kept, kept + 1⟩

/-- The new places of all instructions of a text. -/
def newPlaces (text : Text) : Array Nat :=
  (text.foldl Places.next ⟨#[], 0⟩).places

/-- An instruction whose link, if it uses one, follows its partner to the new place. -/
def relink (places : Array Nat) (instruction : Instruction) : Except Fault Instruction :=
  if instruction.opcode.isBoundary then
    match places[instruction.link]? with
    | some place => .ok { instruction with link := place }
    | none => .error .outOfRange
  else .ok instruction

/-- Leaves out every `popFast`. A text without one stays as it is, whatever its links are. -/
def dropFastEnds (text : Text) : Except Fault Text :=
  if text.any (·.opcode = .popFast) then
    (text.filter (·.opcode ≠ .popFast)).mapM (relink (newPlaces text))
  else .ok text

theorem size_places_next (places : Places) (instruction : Instruction) :
    (places.next instruction).places.size = places.places.size + 1 := by
  rcases places with ⟨places, kept⟩
  simp only [Places.next]
  split <;> simp

theorem size_places_foldl_next (rest : List Instruction) (places : Places) :
    (rest.foldl Places.next places).places.size = places.places.size + rest.length := by
  induction rest generalizing places with
  | nil => rfl
  | cons instruction rest ih =>
    rw [List.foldl_cons, ih, size_places_next, List.length_cons]
    omega

theorem size_newPlaces (text : Text) : (newPlaces text).size = text.size := by
  rw [newPlaces, ← Array.foldl_toList, size_places_foldl_next]
  simp

theorem dropFastEnds_of_forall_ne {text : Text}
    (without : ∀ instruction ∈ text, instruction.opcode ≠ .popFast) :
    dropFastEnds text = .ok text := by
  rw [dropFastEnds, if_neg]
  intro found
  obtain ⟨instruction, member, fast⟩ := Array.any_eq_true'.mp found
  exact without instruction member (of_decide_eq_true fast)

end TapeMachine.Region
