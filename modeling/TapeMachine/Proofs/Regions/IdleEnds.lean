/-
**Idle ends can be left out.**

`Region.dropFastEnds` takes instructions out of the middle of a text, and every link behind or across them
changes. No run can tell, whether the text is one that is assembled or not.

* `Region.newPlace`: how many instructions before a position stay, so where the position is afterwards;
* `Region.follow`, `dropFastEnds_eq`: what is left of the text, if its links lead into it and it does
  not begin with an idle end. Behind the new link of an instruction is the new place of what is behind
  its link;
* `Machine.step_mapPosition`: an instruction does the same at the new places;
* `ends_mapPosition`, `exists_ends_of_ends`: so the runs of the two texts end together. The shorter one
  does nothing while the longer one does an idle end, and every stretch of idle ends is over at some time;
* `Run.EndsAlike`: the two runs go on for ever, or end in the same way;
* `endsAlike_of_dropFastEnds`: so they do.
-/

import TapeMachine.Proofs.Assembly.WellFormed
import TapeMachine.Proofs.Behavior.Advance
import TapeMachine.Proofs.Behavior.Basic
import TapeMachine.Proofs.Code.Final

namespace TapeMachine

/-! ### New places -/

namespace Region

/-- How many instructions before the position stay. -/
def newPlace (text : Text) (position : Nat) : Nat :=
  (text.toList.take position).countP (·.opcode ≠ .popFast)

/-- An instruction with the link it has when the idle ends are left out. -/
def follow (text : Text) (instruction : Instruction) : Instruction :=
  if instruction.opcode.isBoundary then
    { instruction with link := newPlace text (instruction.link + 1) - 1 }
  else instruction

variable {text : Text} {position : Nat} {instruction : Instruction}

theorem newPlace_zero (text : Text) : newPlace text 0 = 0 := rfl

theorem newPlace_succ (found : text[position]? = some instruction) :
    newPlace text (position + 1) =
      newPlace text position + if instruction.opcode = .popFast then 0 else 1 := by
  rw [← Array.getElem?_toList] at found
  rw [newPlace, newPlace, List.take_add_one, found, List.countP_append, Option.toList_some,
    List.countP_singleton]
  simp only [decide_not, Bool.not_eq_true', decide_eq_false_iff_not, ite_not]

theorem newPlace_le (text : Text) (position : Nat) : newPlace text position ≤ position :=
  Nat.le_trans List.countP_le_length (List.length_take_le _ _)

theorem newPlace_size (text : Text) :
    newPlace text text.size = (text.filter (·.opcode ≠ .popFast)).size := by
  have kept : (text.filter (·.opcode ≠ .popFast)).toList = text.toList.filter (·.opcode ≠ .popFast) :=
    Array.toList_filter
  have count := congrArg List.length kept
  rw [Array.length_toList, ← List.countP_eq_length_filter] at count
  rw [newPlace, count, ← Array.length_toList, List.take_length]

/-- An instruction that stays is at its new place among those that stay. -/
theorem getElem?_newPlace (found : text[position]? = some instruction)
    (stays : instruction.opcode ≠ .popFast) :
    (text.filter (·.opcode ≠ .popFast))[newPlace text position]? = some instruction := by
  rw [← Array.getElem?_toList] at found ⊢
  obtain ⟨inside, rfl⟩ := List.getElem?_eq_some_iff.mp found
  have kept : text.toList.filter (·.opcode ≠ .popFast) =
      (text.toList.take position).filter (·.opcode ≠ .popFast) ++
        text.toList[position] :: (text.toList.drop (position + 1)).filter (·.opcode ≠ .popFast) := by
    rw [← List.filter_cons_of_pos (by simpa using stays), ← List.drop_eq_getElem_cons,
      ← List.filter_append, List.take_append_drop]
  rw [Array.toList_filter, kept, newPlace, List.countP_eq_length_filter,
    List.getElem?_append_right (Nat.le_refl _), Nat.sub_self, List.getElem?_cons_zero]

/-- In a text without idle ends every position stays. -/
theorem newPlace_of_forall_ne (without : ∀ instruction ∈ text, instruction.opcode ≠ .popFast)
    (inside : position ≤ text.size) : newPlace text position = position := by
  have all : ∀ instruction ∈ text.toList.take position, decide (instruction.opcode ≠ .popFast) = true :=
    fun instruction member =>
      decide_eq_true (without instruction (Array.mem_toList_iff.mp (List.mem_of_mem_take member)))
  rw [newPlace, List.countP_eq_length.mpr all, List.length_take, Array.length_toList,
    Nat.min_eq_left inside]

/-! ### The table of new places -/

/-- The table is right about the instructions so far. -/
structure Tabled (read : List Instruction) (now : Places) : Prop where
  kept : now.kept = read.countP (·.opcode ≠ .popFast)
  size : now.places.size = read.length
  places : ∀ position < read.length,
    now.places[position]? = some ((read.take (position + 1)).countP (·.opcode ≠ .popFast) - 1)

theorem Tabled.next {read : List Instruction} {now : Places} (tabled : Tabled read now)
    (instruction : Instruction) : Tabled (read ++ [instruction]) (now.next instruction) := by
  rcases now with ⟨table, count⟩
  obtain ⟨rfl, size, places⟩ := tabled
  -- An idle end has the place before the next one that is free, and everything else takes that one.
  have added : Places.next ⟨table, read.countP (·.opcode ≠ .popFast)⟩ instruction =
      ⟨table.push ((read ++ [instruction]).countP (·.opcode ≠ .popFast) - 1),
        (read ++ [instruction]).countP (·.opcode ≠ .popFast)⟩ := by
    by_cases idle : instruction.opcode = .popFast <;>
      simp [Places.next, idle, List.countP_append]
  rw [added]
  refine ⟨rfl, by simp [size], fun position inside => ?_⟩
  rw [List.length_append, List.length_singleton] at inside
  rcases Nat.lt_succ_iff_lt_or_eq.mp inside with earlier | rfl
  · rw [Array.getElem?_push_lt (size ▸ earlier), ← Array.getElem?_eq_getElem, places position earlier,
      List.take_append_of_le_length earlier]
  · rw [← size, Array.getElem?_push_size, size, List.take_of_length_le (by simp)]

theorem Tabled.foldl {read : List Instruction} {now : Places} (tabled : Tabled read now)
    (rest : List Instruction) : Tabled (read ++ rest) (rest.foldl Places.next now) := by
  induction rest generalizing read now with
  | nil => rwa [List.append_nil]
  | cons instruction rest ih =>
    rw [List.append_cons, List.foldl_cons]
    exact ih (tabled.next instruction)

/-- An instruction stands one place before what is behind it. -/
theorem getElem?_newPlaces (inside : position < text.size) :
    (newPlaces text)[position]? = some (newPlace text (position + 1) - 1) := by
  have tabled : Tabled [] ⟨#[], 0⟩ := ⟨rfl, rfl, nofun⟩
  rw [newPlaces, ← Array.foldl_toList]
  exact (tabled.foldl text.toList).places position inside

/-! ### What is left -/

/-- Every link that is used leads into the text. -/
def Linked (text : Text) : Prop :=
  ∀ instruction ∈ text, instruction.opcode.isBoundary = true → instruction.link < text.size

theorem relink_newPlaces (linked : Linked text) (member : instruction ∈ text) :
    relink (newPlaces text) instruction = .ok (follow text instruction) := by
  unfold follow
  split
  · next boundary => exact relink_of_boundary boundary (getElem?_newPlaces (linked _ member boundary))
  · next other => exact relink_of_unlinked _ (Bool.eq_false_iff.mpr other)

theorem mapM_relink_newPlaces (linked : Linked text) {instructions : List Instruction}
    (members : ∀ instruction ∈ instructions, instruction ∈ text) :
    instructions.mapM (relink (newPlaces text)) = .ok (instructions.map (follow text)) := by
  induction instructions with
  | nil => rfl
  | cons instruction rest ih =>
    rw [List.forall_mem_cons] at members
    exact mapM_relink_cons (relink_newPlaces linked members.1) (ih members.2)

theorem follow_of_forall_ne (linked : Linked text)
    (without : ∀ instruction ∈ text, instruction.opcode ≠ .popFast) (member : instruction ∈ text) :
    follow text instruction = instruction := by
  unfold follow
  split
  · next boundary =>
    have behind : instruction.link + 1 ≤ text.size := linked _ member boundary
    rw [newPlace_of_forall_ne without behind, Nat.add_sub_cancel]
  · rfl

/-- What is left of a text. -/
def kept (text : Text) : Text :=
  (text.filter (·.opcode ≠ .popFast)).map (follow text)

theorem size_kept (text : Text) : (kept text).size = newPlace text text.size := by
  rw [kept, Array.size_map, newPlace_size]

/-- No idle end is left. -/
theorem opcode_ne_of_mem_kept (member : instruction ∈ kept text) : instruction.opcode ≠ .popFast := by
  obtain ⟨before, stays, rfl⟩ := Array.mem_map.mp member
  have same : (follow text before).opcode = before.opcode := by
    unfold follow
    split <;> rfl
  rw [same]
  exact of_decide_eq_true (Array.mem_filter.mp stays).2

theorem getElem?_kept (found : text[position]? = some instruction)
    (stays : instruction.opcode ≠ .popFast) :
    (kept text)[newPlace text position]? = some (follow text instruction) := by
  rw [kept, Array.getElem?_map, getElem?_newPlace found stays]
  rfl

/-- **What is left of a text** whose links lead into it. -/
theorem dropFastEnds_eq (linked : Linked text) : dropFastEnds text = .ok (kept text) := by
  by_cases present : text.any (·.opcode = .popFast)
  · have members : ∀ instruction ∈ (text.filter (·.opcode ≠ .popFast)).toList, instruction ∈ text :=
      fun instruction member => (Array.mem_filter.mp (Array.mem_toList_iff.mp member)).1
    have relinked := mapM_relink_newPlaces linked members
    rw [dropFastEnds, if_pos present, Array.mapM_eq_mapM_toList, relinked, ← Array.toList_map]
    rfl
  · have without : ∀ instruction ∈ text, instruction.opcode ≠ .popFast := fun instruction member same =>
      present (Array.any_eq_true'.mpr ⟨instruction, member, decide_eq_true same⟩)
    have all : text.filter (·.opcode ≠ .popFast) = text :=
      Array.filter_eq_self.mpr fun instruction member => decide_eq_true (without instruction member)
    have same : text.map (follow text) = text.map id :=
      Array.map_congr_left fun instruction member => follow_of_forall_ne linked without member
    rw [dropFastEnds_of_forall_ne without, kept, all, same, Array.map_id]

/-- Behind an instruction's link is the new place of what was behind it, unless the text begins with an
idle end. -/
theorem succ_newPlace_sub_one (first : ∀ instruction, text[0]? = some instruction →
    instruction.opcode ≠ .popFast) (inside : position < text.size) :
    newPlace text (position + 1) - 1 + 1 = newPlace text (position + 1) := by
  obtain ⟨opening, found⟩ : ∃ opening, text[0]? = some opening :=
    ⟨_, Array.getElem?_eq_getElem (Nat.zero_lt_of_lt inside)⟩
  have one : newPlace text 1 = 1 := by
    rw [newPlace_succ found, newPlace_zero, if_neg (first opening found)]
  have mono : newPlace text 1 ≤ newPlace text (position + 1) :=
    List.Sublist.countP_le (List.take_sublist_take_left (by omega))
  omega

end Region

/-! ### Other positions -/

section Positions

variable (place : Nat → Nat)

/-- The machine at another position. -/
def Machine.mapPosition (machine : Machine) : Machine :=
  { machine with position := place machine.position }

/-- The run at another position. -/
def Run.mapPosition (run : Run) : Run :=
  ⟨run.machine.mapPosition place, run.terminal⟩

/-- The step at another position. -/
def Step.mapPosition : Step → Step
  | .next machine => .next (machine.mapPosition place)
  | .write byte machine => .write byte (machine.mapPosition place)
  | .read machine => .read (machine.mapPosition place)
  | .stop machine => .stop (machine.mapPosition place)
  | .overflow machine => .overflow (machine.mapPosition place)
  | .endless machine => .endless (machine.mapPosition place)

/-- The ending at another position. -/
def Ending.mapPosition : Ending → Ending
  | .overrun position => .overrun (place position)
  | ending => ending

/-- What has become of the run at another position. -/
def Progress.mapPosition : Progress → Progress
  | .running run => .running (run.mapPosition place)
  | .ended ending run => .ended (ending.mapPosition place) (run.mapPosition place)
  | .stuck run => .stuck (run.mapPosition place)

/-- The terminal does not know the position. -/
theorem Run.perform_mapPosition (terminal : Terminal) (step : Step) :
    perform terminal (step.mapPosition place) = (perform terminal step).mapPosition place := by
  cases step with
  | next machine | overflow machine | endless machine => rfl
  | write byte machine | read machine =>
    simp only [Step.mapPosition, perform]
    split <;> rfl
  | stop machine =>
    simp only [Step.mapPosition, perform, close]
    split <;> rfl

/-- An instruction does the same at another position, if its link leads to where it has led. -/
theorem Machine.step_mapPosition {machine : Machine} {instruction : Instruction} {link : Nat}
    (next : place (machine.position + 1) = place machine.position + 1)
    (jumps : instruction.opcode.isBoundary = true → instruction.link + 1 < positionLimit ∧
      link + 1 < positionLimit ∧ link + 1 = place (instruction.link + 1)) :
    (machine.mapPosition place).step { instruction with link := link } =
      (machine.step instruction).mapPosition place := by
  rcases machine with ⟨head, position, register, stack⟩
  rcases instruction with ⟨opcode, value, offset, before⟩
  have goes (head : Head) (register : UInt8) (stack : List UInt8) :
      Step.next ⟨head, place position + 1, register, stack⟩ =
        (Step.next ⟨head, position + 1, register, stack⟩).mapPosition place :=
    congrArg (fun position => Step.next ⟨head, position, register, stack⟩) next.symm
  have proceeds (outcome : Except Head Head) :
      proceed (place position) register stack outcome =
        (proceed position register stack outcome).mapPosition place := by
    cases outcome with
    | ok head => exact goes ..
    | error head => rfl
  have jumped (boundary : opcode.isBoundary = true) :
      jump ⟨head, place position, register, stack⟩ link =
        (jump ⟨head, position, register, stack⟩ before).mapPosition place := by
    obtain ⟨old, new, same⟩ := jumps boundary
    rw [jump, jump, if_pos old, if_pos new, same]
    rfl
  have either {condition : Prop} [Decidable condition] {yes no yesMoved noMoved : Step}
      (first : yesMoved = yes.mapPosition place) (second : noMoved = no.mapPosition place) :
      (if condition then yesMoved else noMoved) =
        (if condition then yes else no).mapPosition place := by
    split
    · exact first
    · exact second
  cases opcode with
  | nop | popFast | add | set | pop => exact goes ..
  | input => exact congrArg (fun position => Step.read ⟨head, position, register, stack⟩) next.symm
  | output =>
    exact congrArg (fun position => Step.write head.read ⟨head, position, register, stack⟩) next.symm
  | stop => rfl
  | move | reset | multiply => exact proceeds _
  | loopStart | loopEnd | push | pushFast => exact either (jumped rfl) (goes ..)
  | store => exact either (goes ..) (proceeds _)
  | seek =>
    simp only [step, mapPosition]
    cases head.seek value with
    | some outcome => exact proceeds outcome
    | none => rfl

end Positions

/-! ### Runs -/

namespace Region

variable {text : Text} {run next last : Run} {instruction : Instruction} {ending : Ending} {count : Nat}

/-- No instruction leads behind the end of the text. -/
theorem position_le_of_perform (linked : Linked text)
    (found : text[run.machine.position]? = some instruction)
    (performed : Run.perform run.terminal (run.machine.step instruction) = .running next) :
    next.machine.position ≤ text.size := by
  obtain ⟨inside, rfl⟩ := Array.getElem?_eq_some_iff.mp found
  rcases Run.position_of_perform_cases performed with behind | ⟨opcode, jumped⟩
  · rw [behind]
    exact inside
  · have boundary : text[run.machine.position].opcode.isBoundary = true := by
      revert opcode
      cases text[run.machine.position].opcode <;> decide
    rw [jumped]
    exact linked _ (Array.getElem_mem inside) boundary

/-- A run whose links lead into the text can leave it at its end only. -/
theorem eq_size_of_overrun (linked : Linked text) (inside : run.machine.position ≤ text.size)
    {position : Nat} (ended : Run.advance text count run = .ended (.overrun position) last) :
    position = text.size := by
  have outside {run : Run} (inside : run.machine.position ≤ text.size)
      (missing : text[run.machine.position]? = none) : run.machine.position = text.size :=
    Nat.le_antisymm inside (Array.getElem?_eq_none_iff.mp missing)
  induction count generalizing run with
  | zero =>
    rw [Run.advance_zero] at ended
    split at ended <;> cases ended
    next missing => exact outside inside missing
  | succ count ih =>
    cases found : text[run.machine.position]? with
    | none =>
      rw [Run.advance_of_overrun found] at ended
      cases ended
      exact outside inside found
    | some instruction =>
      rcases Run.ended_cases found ended with performed | ⟨next, performed, ended⟩
      · exact (Run.perform_ne_overrun performed).elim
      · exact ih (position_le_of_perform linked found performed) ended

/-- Where the text is left, so is what is left of it. -/
theorem getElem?_kept_of_none (inside : run.machine.position ≤ text.size)
    (outside : text[run.machine.position]? = none) :
    (kept text)[(run.mapPosition (newPlace text)).machine.position]? = none := by
  have ended : run.machine.position = text.size :=
    Nat.le_antisymm inside (Array.getElem?_eq_none_iff.mp outside)
  rw [Array.getElem?_eq_none_iff, size_kept, ← ended]
  exact Nat.le_refl _

/-- An idle end does nothing. -/
theorem perform_of_idle (run : Run) (idle : instruction.opcode = .popFast) :
    Run.perform run.terminal (run.machine.step instruction) =
      .running (run.hop (run.machine.position + 1)) := by
  rcases instruction with ⟨opcode, value, offset, link⟩
  obtain rfl : opcode = .popFast := idle
  rfl

theorem mapPosition_hop {place : Nat → Nat} {position : Nat}
    (same : place position = place run.machine.position) :
    (run.hop position).mapPosition place = run.mapPosition place := by
  simp only [Run.mapPosition, Run.hop, Machine.mapPosition, same]

/-- Every stretch of idle ends is over at some time. -/
theorem exists_walk {left : Nat} (inside : run.machine.position + left = text.size) :
    ∃ steps position, position ≤ text.size ∧
      newPlace text position = newPlace text run.machine.position ∧
      (∀ instruction, text[position]? = some instruction → instruction.opcode ≠ .popFast) ∧
      ∀ count, Run.advance text (steps + count) run = Run.advance text count (run.hop position) := by
  induction left generalizing run with
  | zero =>
    refine ⟨0, run.machine.position, Nat.le.intro inside, rfl, fun instruction found => ?_, fun count => ?_⟩
    · have before := (Array.getElem?_eq_some_iff.mp found).1
      omega
    · rw [Nat.zero_add]
      rfl
  | succ left ih =>
    have found : text[run.machine.position]? = some text[run.machine.position] :=
      Array.getElem?_eq_getElem (by omega)
    by_cases idle : text[run.machine.position].opcode = .popFast
    · obtain ⟨steps, position, upto, same, stays, walked⟩ :=
        @ih (run.hop (run.machine.position + 1)) (by simp only [Run.hop]; omega)
      refine ⟨steps + 1, position, upto, ?_, stays, fun count => ?_⟩
      · rw [same]
        exact (newPlace_succ found).trans (by rw [if_pos idle, Nat.add_zero])
      · rw [Nat.add_right_comm, Run.advance_succ_of_running found (perform_of_idle run idle)]
        exact walked count
    · refine ⟨0, run.machine.position, by omega, rfl, fun instruction here => ?_, fun count => ?_⟩
      · rw [found] at here
        exact Option.some.inj here ▸ idle
      · rw [Nat.zero_add]
        rfl

section Dropped

variable (linked : Linked text) (short : text.size < positionLimit)
  (first : ∀ instruction, text[0]? = some instruction → instruction.opcode ≠ .popFast)

include linked short first

/-- **An instruction that stays does the same** as before. -/
theorem perform_follow (run : Run) (found : text[run.machine.position]? = some instruction)
    (stays : instruction.opcode ≠ .popFast) :
    Run.perform run.terminal
        ((run.machine.mapPosition (newPlace text)).step (follow text instruction)) =
      (Run.perform run.terminal (run.machine.step instruction)).mapPosition (newPlace text) := by
  have next : newPlace text (run.machine.position + 1) = newPlace text run.machine.position + 1 := by
    rw [newPlace_succ found, if_neg stays]
  rw [← Run.perform_mapPosition]
  congr 1
  unfold follow
  split
  · next boundary =>
    have inside := linked _ (Array.mem_of_getElem? found) boundary
    have behind := succ_newPlace_sub_one first inside
    have early := newPlace_le text (instruction.link + 1)
    exact Machine.step_mapPosition _ next fun _ => ⟨by omega, by omega, behind⟩
  · next plain =>
    exact @Machine.step_mapPosition _ _ _ instruction.link next fun boundary => (plain boundary).elim

/-- A run of the text that ends does so without the idle ends. -/
theorem ends_mapPosition (inside : run.machine.position ≤ text.size)
    (ended : Run.advance text count run = .ended ending last) :
    Run.Ends (kept text) (run.mapPosition (newPlace text)) (ending.mapPosition (newPlace text))
      (last.mapPosition (newPlace text)) := by
  induction count generalizing run with
  | zero =>
    rw [Run.advance_zero] at ended
    split at ended <;> cases ended
    next outside => exact ⟨0, Run.advance_of_overrun (getElem?_kept_of_none inside outside) 0⟩
  | succ count ih =>
    cases found : text[run.machine.position]? with
    | none =>
      rw [Run.advance_of_overrun found] at ended
      cases ended
      exact ⟨0, Run.advance_of_overrun (getElem?_kept_of_none inside found) 0⟩
    | some instruction =>
      by_cases idle : instruction.opcode = .popFast
      · have performed := perform_of_idle run idle
        have upto := position_le_of_perform linked found performed
        rw [Run.advance_succ_of_running found performed] at ended
        have later := ih upto ended
        rwa [mapPosition_hop] at later
        rw [newPlace_succ found, if_pos idle, Nat.add_zero]
      · have there := getElem?_kept found idle
        have follows := perform_follow linked short first run found idle
        rcases Run.ended_cases found ended with performed | ⟨next, performed, ended⟩
        · rw [performed] at follows
          exact ⟨1, Run.advance_succ_of_ended there follows 0⟩
        · obtain ⟨later, ends⟩ := ih (position_le_of_perform linked found performed) ended
          rw [performed] at follows
          exact ⟨later + 1, (Run.advance_succ_of_running there follows later).trans ends⟩

/-- A run that ends without the idle ends does so with them. -/
theorem exists_ends_of_ends (inside : run.machine.position ≤ text.size)
    (ended : Run.advance (kept text) count (run.mapPosition (newPlace text)) = .ended ending last) :
    ∃ ending last, Run.Ends text run ending last := by
  induction count using Nat.strongRecOn generalizing run with
  | _ count ih =>
    -- The run first comes to an instruction that stays, or leaves the text.
    obtain ⟨left, whole⟩ := Nat.exists_eq_add_of_le inside
    obtain ⟨steps, position, upto, same, stays, walked⟩ := exists_walk whole.symm
    rw [← mapPosition_hop same] at ended
    cases found : text[position]? with
    | none => exact ⟨_, _, steps, (walked 0).trans (Run.advance_of_overrun found 0)⟩
    | some instruction =>
      have there := getElem?_kept found (stays instruction found)
      have follows := perform_follow linked short first (run.hop position) found
        (stays instruction found)
      cases count with
      | zero =>
        rw [Run.advance_zero_of_getElem? there] at ended
        cases ended
      | succ count =>
        cases performed : Run.perform (run.hop position).terminal
            ((run.hop position).machine.step instruction) with
        | running next =>
          rw [performed] at follows
          rw [Run.advance_succ_of_running there follows] at ended
          have upto := position_le_of_perform linked found performed
          obtain ⟨ending, last, later, ends⟩ := ih count (Nat.lt_succ_self count) upto ended
          exact ⟨ending, last, steps + (later + 1),
            (walked _).trans ((Run.advance_succ_of_running found performed later).trans ends)⟩
        | ended other now =>
          exact ⟨other, now, steps + 1, (walked 1).trans (Run.advance_succ_of_ended found performed 0)⟩
        | stuck now =>
          rw [performed] at follows
          rw [Run.advance_succ_of_stuck there follows] at ended
          cases ended

end Dropped

end Region

/-! ### Both texts -/

/-- The run goes on for ever with both texts, or ends with both, in the same way. -/
structure Run.EndsAlike (text other : Text) (run : Run) : Prop where
  /-- It ends with both, or with none. -/
  ends_iff : (∃ ending last, Ends text run ending last) ↔ ∃ ending last, Ends other run ending last
  /-- Only the position may differ, and a run that leaves a text reports the size of that one. -/
  same : ∀ ending last result final, Ends text run ending last → Ends other run result final →
    ((∀ position, ending ≠ .overrun position) ∧ result = ending ∨
        ending = .overrun text.size ∧ result = .overrun other.size) ∧
      final.machine.head = last.machine.head ∧ final.machine.register = last.machine.register ∧
      final.machine.stack = last.machine.stack ∧ final.terminal = last.terminal

/-- **All idle ends can be left out** of a text whose links lead into it, if it does not begin with one. -/
theorem endsAlike_of_dropFastEnds {text : Text}
    (first : ∀ instruction, text[0]? = some instruction → instruction.opcode ≠ .popFast)
    (linked : ∀ instruction ∈ text, instruction.opcode.isBoundary = true → instruction.link < text.size)
    (short : text.size < positionLimit) :
    ∃ dropped, Region.dropFastEnds text = .ok dropped ∧
      (∀ instruction ∈ dropped, instruction.opcode ≠ .popFast) ∧
      ∀ run : Run, run.machine.position = 0 → run.EndsAlike text dropped := by
  refine ⟨Region.kept text, Region.dropFastEnds_eq linked, fun _ => Region.opcode_ne_of_mem_kept,
    fun run start => ?_⟩
  have inside : run.machine.position ≤ text.size := start ▸ Nat.zero_le _
  have same : run.mapPosition (Region.newPlace text) = run := by
    rcases run with ⟨⟨head, position, register, stack⟩, terminal⟩
    obtain rfl : position = 0 := start
    rfl
  have forth {ending : Ending} {last : Run} (ends : Run.Ends text run ending last) :
      Run.Ends (Region.kept text) run (ending.mapPosition (Region.newPlace text))
        (last.mapPosition (Region.newPlace text)) := by
    obtain ⟨count, ended⟩ := ends
    have there := Region.ends_mapPosition linked short first inside ended
    rwa [same] at there
  refine ⟨⟨?_, ?_⟩, ?_⟩
  · rintro ⟨ending, last, ends⟩
    exact ⟨_, _, forth ends⟩
  · rintro ⟨ending, last, count, ended⟩
    rw [← same] at ended
    exact Region.exists_ends_of_ends linked short first inside ended
  · intro ending last result final here there
    obtain ⟨rfl, rfl⟩ := Run.ends_unique there (forth here)
    refine ⟨?_, rfl, rfl, rfl, rfl⟩
    cases ending with
    | overrun position =>
      obtain ⟨count, ended⟩ := here
      obtain rfl := Region.eq_size_of_overrun linked inside ended
      exact .inr ⟨rfl, by rw [Region.size_kept]; rfl⟩
    | stopped | streamFailure | exhausted | overflow => exact .inl ⟨nofun, rfl⟩

/-- Two regions, one of them in a loop: the loop begins where an idle end was, and the links of both its
ends change. -/
theorem two_regions_endAlike :
    let text : Text := #[{ opcode := .pushFast, link := 2 },
      { opcode := .multiply, value := 2, offset := 1 }, { opcode := .popFast, link := 0 },
      { opcode := .loopStart, link := 6 }, { opcode := .pushFast, link := 5 },
      { opcode := .popFast, link := 4 }, { opcode := .loopEnd, link := 3 }, { opcode := .stop }]
    let dropped : Text := #[{ opcode := .pushFast, link := 1 },
      { opcode := .multiply, value := 2, offset := 1 }, { opcode := .loopStart, link := 4 },
      { opcode := .pushFast, link := 3 }, { opcode := .loopEnd, link := 2 }, { opcode := .stop }]
    Region.dropFastEnds text = .ok dropped ∧
      ∀ run : Run, run.machine.position = 0 → run.EndsAlike text dropped := by
  intro text dropped
  have left : Region.dropFastEnds text = .ok dropped := toOption_eq_some.mp (by decide +kernel)
  obtain ⟨other, same, -, alike⟩ :=
    @endsAlike_of_dropFastEnds text (by decide) (by decide) (by decide)
  obtain rfl := Except.ok.inj (left.symm.trans same)
  exact ⟨left, alike⟩

end TapeMachine
