/-
**Building a program.**

The tokens of a source are taken in one by one. Runs of moves and runs of additions are folded as
they are written, every loop is linked and improved when it is closed, and the finished text ends
with `stop`.

* `Draft.take` takes in one token;
* `assemble` builds the program of a source, or says which bracket has no partner: the first closing
  bracket that has none, or else the last opening bracket.
-/

import TapeMachine.Diagnostic
import TapeMachine.Token

namespace TapeMachine

/-- Why a source is not a program. -/
inductive AssemblyError where
  /-- A bracket without a partner. -/
  | unmatched (bracket : Token)
  /-- The text left the limits of its numbers. -/
  | fault (fault : Fault)
  deriving DecidableEq

namespace AssemblyError

/-- The symbol that an unmatched bracket should have been paired with. -/
def partner : Symbol → Symbol
  | .opening => .closing
  | .closing => .opening
  | other => other

/-- The text of an error about a bracket. -/
def unmatchedMessage (bracket : Token) : String :=
  "Can't find other symbol (" ++ String.singleton (partner bracket.symbol).char ++ ") for " ++
    String.singleton bracket.symbol.char ++ " at " ++
    String.ofList (Decimal.natural bracket.place.line) ++ ":" ++
    String.ofList (Decimal.natural bracket.place.column)

end AssemblyError

/-! ### Folding -/

namespace Text

/-- Writes a move or an addition, which joins the last instruction if that is of the same kind. With
`folding`, an addition also joins a constant, and makes a single cleared cell a constant. -/
def accumulate (folding : Bool) (opcode : Opcode) (amount : Int) (text : Text) :
    Except Fault Text :=
  match text.back? with
  | none => return text.push { opcode := opcode, value := amount }
  | some last =>
    if last.opcode = opcode then do
      let value ← operand (last.value + amount)
      if value = 0 then return text.pop
      else return text.pop.push { last with value := value }
    else if folding ∧ opcode = .add ∧ last.opcode = .set then do
      let value ← operand (last.value + amount)
      return text.pop.push { last with value := value }
    else if folding ∧ opcode = .add ∧ last.opcode = .reset ∧ last.value = 1 then
      return text.pop.push { opcode := .set, value := amount }
    else
      return text.push { opcode := opcode, value := amount }

/-- Writes the end of the loop that begins at `start`, each linked to the other. -/
def close (text : Text) (start : Nat) : Except Fault Text :=
  if start < text.size then
    let stop := text.size
    .ok ((text.modify start ({ · with link := stop })).push { opcode := .loopEnd, link := start })
  else
    .error .outOfRange

end Text

/-! ### Drafts -/

/-- A loop without its end: where it begins and the bracket that began it. -/
structure OpenLoop where
  start : Nat
  bracket : Token
  deriving DecidableEq

/-- A program that is being built. -/
structure Draft where
  text : Text
  /-- The loops that are still open, innermost first. -/
  waiting : List OpenLoop
  diagnostics : Array Diagnostic

/-- A source was given up, after some reports. -/
structure Rejection where
  error : AssemblyError
  diagnostics : Array Diagnostic

/-- A finished program with the reports about it. -/
structure Assembly where
  text : Text
  diagnostics : Array Diagnostic

namespace Draft

/-- Nothing is written. -/
def empty : Draft := ⟨#[], [], #[]⟩

/-- Writes an instruction. -/
def write (instruction : Instruction) : Draft → Draft
  | ⟨text, waiting, diagnostics⟩ => ⟨text.push instruction, waiting, diagnostics⟩

/-- Writes a move or an addition. -/
def fold (passes : Passes) (opcode : Opcode) (amount : Int) : Draft → Except Rejection Draft
  | ⟨text, waiting, diagnostics⟩ =>
    match text.accumulate (passes .setFolding) opcode amount with
    | .ok text => .ok ⟨text, waiting, diagnostics⟩
    | .error fault => .error ⟨.fault fault, diagnostics⟩

/-- Begins a loop. -/
def openLoop (bracket : Token) : Draft → Draft
  | ⟨text, waiting, diagnostics⟩ =>
    let start := text.size
    ⟨text.push { opcode := .loopStart }, ⟨start, bracket⟩ :: waiting, diagnostics⟩

/-- Does to the loop that begins at `start` what an improvement says. -/
def adopt (start : Nat) (improvement : Improvement) : Draft → Draft
  | ⟨text, waiting, diagnostics⟩ =>
    let diagnostics := diagnostics ++ improvement.refusals.map Diagnostic.refused
    match improvement.applied with
    | none => ⟨text, waiting, diagnostics⟩
    | some (pass, edit) =>
      let text := text.apply edit
      let size := text.size
      ⟨text, waiting, diagnostics.push (.rewrote pass start size)⟩

/-- Ends the innermost open loop, and improves it. -/
def closeLoop (passes : Passes) (bracket : Token) : Draft → Except Rejection Draft
  | ⟨_, [], diagnostics⟩ => .error ⟨.unmatched bracket, diagnostics⟩
  | ⟨text, ⟨start, _⟩ :: waiting, diagnostics⟩ =>
    match text.close start with
    | .error fault => .error ⟨.fault fault, diagnostics⟩
    | .ok text =>
      match improve passes text start with
      | .error fault => .error ⟨.fault fault, diagnostics⟩
      | .ok improvement => .ok (adopt start improvement ⟨text, waiting, diagnostics⟩)

/-- Takes in one token. -/
def take (passes : Passes) (draft : Draft) (token : Token) : Except Rejection Draft :=
  match token.symbol with
  | .right => draft.fold passes .move 1
  | .left => draft.fold passes .move (-1)
  | .increment => draft.fold passes .add 1
  | .decrement => draft.fold passes .add (-1)
  | .write => .ok (draft.write { opcode := .output })
  | .read => .ok (draft.write { opcode := .input })
  | .opening => .ok (draft.openLoop token)
  | .closing => draft.closeLoop passes token

/-- Takes in the end of the source. -/
def finish (passes : Passes) (draft : Draft) : Except Rejection Assembly :=
  match draft.waiting with
  | ⟨_, bracket⟩ :: _ => .error ⟨.unmatched bracket, draft.diagnostics⟩
  | [] =>
    match Region.dropFastEnds (draft.text.push { opcode := .stop }) with
    | .ok text => .ok ⟨text, draft.diagnostics.push (.finished text.size passes.toList)⟩
    | .error fault => .error ⟨.fault fault, draft.diagnostics⟩

end Draft

/-- Builds the program of a source. -/
def assemble (passes : Passes) (source : Source) : Except Rejection Assembly := do
  let draft ← (scan source).tokens.foldlM (Draft.take passes) Draft.empty
  draft.finish passes

end TapeMachine
