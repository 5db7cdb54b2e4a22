/-
**The machine.**

A machine holds a tape with its head, the position of the next instruction, and what the regions
need: the register that `multiply` multiplies with, and the stack of the registers of the regions
around. `Machine.step` does one instruction up to the point where it needs the terminal, and says how
to go on.

* `step` is total: an instruction that would leave the range of indexes or positions is given up
  with the machine as it then is, and one that would never end says so.
-/

import TapeMachine.Instruction
import TapeMachine.Tape.Head

namespace TapeMachine

/-- A running machine. -/
structure Machine where
  head : Head
  /-- The next instruction. -/
  position : Nat := 0
  /-- What `multiply` multiplies with. -/
  register : UInt8 := 0
  /-- The counters of the regions around, innermost first. -/
  stack : List UInt8 := []

/-- How to go on behind an instruction. -/
inductive Step where
  /-- With the next instruction of this machine. -/
  | next (machine : Machine)
  /-- With this machine, once a byte is written. -/
  | write (byte : UInt8) (machine : Machine)
  /-- With this machine, once it has received a byte. -/
  | read (machine : Machine)
  /-- Not at all: the run is over. -/
  | stop (machine : Machine)
  /-- Not at all: an index or a position left its range. -/
  | overflow (machine : Machine)
  /-- Not at all: the instruction never ends. -/
  | endless (machine : Machine)

/-- The first number that is no position. -/
def positionLimit : Nat := 0x10000000000000000

namespace Machine

/-- A machine at the start of its program, on the starting cell of a tape. -/
def onTape (tape : Tape) : Machine := { head := Head.onTape tape 0 }

/-- The same machine at the start of a program, back on the starting cell. -/
def restart (machine : Machine) : Machine :=
  match machine with
  | ⟨head, _, register, stack⟩ => ⟨head.moveTo 0, 0, register, stack⟩

/-- The machine behind a read instruction, with the byte received, if there is one. -/
def receive (machine : Machine) (byte : Option UInt8) : Machine :=
  match machine, byte with
  | ⟨head, position, register, stack⟩, some byte => ⟨head.write byte, position, register, stack⟩
  | machine, none => machine

/-- Goes on behind the instruction at `link`. -/
def jump (machine : Machine) (link : Nat) : Step :=
  if link + 1 < positionLimit then .next { machine with position := link + 1 }
  else .overflow machine

/-- Goes on with the next instruction, if the head could do its part. -/
def proceed (position : Nat) (register : UInt8) (stack : List UInt8) : Except Head Head → Step
  | .ok head => .next ⟨head, position + 1, register, stack⟩
  | .error head => .overflow ⟨head, position, register, stack⟩

/-- Does one instruction. -/
def step (machine : Machine) (instruction : Instruction) : Step :=
  match machine with
  | ⟨head, position, register, stack⟩ =>
    let amount := UInt8.ofInt instruction.value
    match instruction.opcode with
    | .nop | .popFast => .next ⟨head, position + 1, register, stack⟩
    | .move => proceed position register stack (head.advance instruction.value)
    | .add =>
      let cell := head.read + amount
      .next ⟨head.write cell, position + 1, register, stack⟩
    | .input => .read ⟨head, position + 1, register, stack⟩
    | .output =>
      let cell := head.read
      .write cell ⟨head, position + 1, register, stack⟩
    | .loopStart =>
      if head.read = 0 then jump ⟨head, position, register, stack⟩ instruction.link
      else .next ⟨head, position + 1, register, stack⟩
    | .loopEnd =>
      if head.read ≠ 0 then jump ⟨head, position, register, stack⟩ instruction.link
      else .next ⟨head, position + 1, register, stack⟩
    | .reset =>
      proceed position register stack
        (Head.clearRun instruction.offset instruction.value.toNat head)
    | .multiply =>
      proceed position register stack (head.addAt instruction.offset (register * amount))
    | .store =>
      let cell := head.read
      if cell = 0 then .next ⟨head, position + 1, register, stack⟩
      else
        proceed position register stack
          ((head.addAt instruction.offset (cell * amount)).map (·.write 0))
    | .seek =>
      match head.seek instruction.value with
      | some moved => proceed position register stack moved
      | none => .endless ⟨head, position, register, stack⟩
    | .set => .next ⟨head.write amount, position + 1, register, stack⟩
    | .stop => .stop ⟨head, position, register, stack⟩
    | .push =>
      let cell := head.read
      if cell = 0 then jump ⟨head, position, register, stack⟩ instruction.link
      else .next ⟨head, position + 1, cell, cell :: stack⟩
    | .pushFast =>
      let cell := head.read
      if cell = 0 then jump ⟨head, position, register, stack⟩ instruction.link
      else .next ⟨head.write 0, position + 1, cell, stack⟩
    | .pop => .next ⟨head.write 0, position + 1, stack.tail.headD 0, stack.tail⟩

end Machine

end TapeMachine
