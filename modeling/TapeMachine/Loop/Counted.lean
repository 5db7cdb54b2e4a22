/-
**Counted loops.**

A loop that takes one from its counter in every turn and otherwise adds fixed amounts to other cells
computes products: after it, every cell has grown by its amount times the counter. It becomes a
region, whose `multiply` instructions add the products at once.

`Fusion` walks over the loop body. It follows where the body has the head (`current`) and where the
region being written has it (`cursor`), which lags behind as long as offsets can make up for it.

* `Fusion.ofBody` reads the body, or says what keeps it from being a counted loop;
* `Fusion.region` is the text that replaces the loop: a single `store` where one product is all
  there is, and otherwise a region, on the stack if there are regions inside of it.
-/

import TapeMachine.Loop.Footprint
import TapeMachine.Region

namespace TapeMachine.Loop

/-- Why a loop is not a counted loop. -/
inductive Refusal where
  /-- An instruction that cannot be part of a counted loop. -/
  | unsupported (instruction : Instruction)
  /-- The body ends with the head off its counter by `offset`, or inside of a region, or adds a
  `total` other than minus one to the counter. -/
  | uncounted (offset total : Int)
  /-- Doing the nested work once is not enough. -/
  | unrepeatable
  deriving DecidableEq

/-- Why no region was made. -/
inductive Obstacle where
  | fault (fault : Fault)
  | refusal (refusal : Refusal)
  deriving DecidableEq

instance : MonadLift (Except Fault) (Except Obstacle) where
  monadLift := Except.mapError .fault

/-- A loop body as far as it has been read, and the region made of it. -/
structure Fusion where
  /-- The inside of the region. -/
  operations : Array Instruction := #[]
  /-- Where the body has the head, relative to the counter. -/
  current : Int := 0
  /-- Where the region has the head. -/
  cursor : Int := 0
  /-- What the body has added to the counter. -/
  total : Int := 0
  /-- How many nested regions are open. -/
  depth : Nat := 0
  /-- There are no nested regions. -/
  leaf : Bool := true
  footprint : Footprint := {}

namespace Fusion

/-- Writes one operation. -/
def write (fusion : Fusion) (operation : Instruction) : Fusion :=
  { fusion with operations := fusion.operations.push operation }

/-- Moves the region's head to where the body has it. -/
def flush (fusion : Fusion) : Except Fault Fusion :=
  if fusion.current = fusion.cursor then
    return fusion
  else do
    let distance ← operand (fusion.current - fusion.cursor)
    return { fusion.write { opcode := .move, value := distance } with cursor := fusion.current }

/-- Adds the product of the multiplier and a factor to a cell. -/
def multiply (fusion : Fusion) (factor target : Int) : Except Fault Fusion := do
  let distance ← operand (target - fusion.cursor)
  return fusion.write { opcode := .multiply, value := factor, offset := distance }

/-- Writes one operation at the place where the body has the head. -/
def writeHere (fusion : Fusion) (operation : Instruction) : Except Fault Fusion := do
  return (← fusion.flush).write operation

/-- One more instruction of the body. -/
def next (fusion : Fusion) (instruction : Instruction) : Except Obstacle Fusion :=
  match fusion with
  | ⟨operations, current, cursor, total, depth, leaf, footprint⟩ =>
    match instruction.opcode with
    | .nop => return ⟨operations, current, cursor, total, depth, leaf, footprint⟩
    | .move => do
      let current ← operand (current + instruction.value)
      return ⟨operations, current, cursor, total, depth, leaf, footprint⟩
    | .add => do
      if current = 0 then
        let total ← operand (total + instruction.value)
        return ⟨operations, current, cursor, total, depth, leaf, footprint⟩
      else
        let footprint := { footprint with added := current :: footprint.added }
        Fusion.multiply ⟨operations, current, cursor, total, depth, leaf, footprint⟩
          instruction.value current
    | .multiply => do
      let target ← operand (current + instruction.offset)
      if target = 0 ∨ depth = 0 then
        throw (.refusal (.unsupported instruction))
      else
        let footprint := { footprint with targets := target :: footprint.targets }
        Fusion.multiply ⟨operations, current, cursor, total, depth, leaf, footprint⟩
          instruction.value target
    | .store => do
      let target ← operand (current + instruction.offset)
      let footprint := { footprint with
        counters := current :: footprint.counters
        targets := target :: footprint.targets }
      Fusion.writeHere ⟨operations, current, cursor, total, depth, leaf, footprint⟩ instruction
    | .push | .pushFast =>
      let footprint := { footprint with counters := current :: footprint.counters }
      Fusion.writeHere ⟨operations, current, cursor, total, depth + 1, false, footprint⟩
        { opcode := .push }
    | .pop | .popFast =>
      match depth with
      | 0 => throw (.refusal (.unsupported instruction))
      | depth + 1 =>
        Fusion.writeHere ⟨operations, current, cursor, total, depth, leaf, footprint⟩
          { opcode := .pop }
    | .set =>
      let footprint := { footprint with
        assigned := current :: footprint.assigned
        constants := current :: footprint.constants }
      Fusion.writeHere ⟨operations, current, cursor, total, depth, leaf, footprint⟩ instruction
    | .reset => do
      let span ← operand ((← operand (instruction.value - 1)) * instruction.offset)
      let last ← operand (current + span)
      let cleared := (List.range instruction.value.toNat).map fun index : Nat =>
        current + index * instruction.offset
      let footprint := { footprint with assigned := cleared ++ footprint.assigned }
      let fusion ← Fusion.writeHere ⟨operations, current, cursor, total, depth, leaf, footprint⟩
        instruction
      return { fusion with current := last, cursor := last }
    | .input | .output | .loopStart | .loopEnd | .seek | .stop =>
      throw (.refusal (.unsupported instruction))

/-- The body has been read and makes a region. -/
def finish (fusion : Fusion) : Except Obstacle Fusion := do
  if fusion.current ≠ 0 ∨ fusion.depth ≠ 0 ∨ fusion.total % 256 ≠ 255 then
    throw (.refusal (.uncounted fusion.current fusion.total))
  else if ¬ fusion.footprint.Repeatable then
    throw (.refusal .unrepeatable)
  else
    fusion.flush

/-- Reads the body of the loop that begins at `start` and ends with the text. -/
def ofBody (text : Text) (start : Nat) : Except Obstacle Fusion := do
  let _ ← text.bodySize start
  (← text.foldlM next {} (start + 1) (text.size - 1)).finish

/-- The text that replaces a counted loop at the position `base`. -/
def region (fusion : Fusion) (base : Nat) : Array Instruction :=
  let sole := if fusion.leaf ∧ fusion.operations.size = 1 then fusion.operations[0]? else none
  match sole.filter (·.opcode = .multiply) with
  | some product => #[{ opcode := .store, value := product.value, offset := product.offset }]
  | none =>
    let first : Instruction := { opcode := if fusion.leaf then .pushFast else .push }
    let last : Instruction := { opcode := if fusion.leaf then .popFast else .pop }
    Region.link base ((#[first] ++ fusion.operations).push last)

end Fusion

/-- Turns a counted loop into a region. -/
def counted (text : Text) (start : Nat) : Except Obstacle Edit := do
  return ⟨start, (← Fusion.ofBody text start).region start⟩

end TapeMachine.Loop
