import TapeMachine.Symbol
import TapeMachine.Token
import TapeMachine.Fault
import TapeMachine.Decimal
import TapeMachine.Instruction
import TapeMachine.Listing
import TapeMachine.Edit
import TapeMachine.Region
import TapeMachine.Loop.Dead
import TapeMachine.Loop.Clearing
import TapeMachine.Loop.Scanning
import TapeMachine.Loop.Footprint
import TapeMachine.Loop.Counted
import TapeMachine.Pass
import TapeMachine.Diagnostic
import TapeMachine.Assembly
import TapeMachine.Tape.Page
import TapeMachine.Tape.Basic
import TapeMachine.Tape.Head
import TapeMachine.Terminal
import TapeMachine.Machine
import TapeMachine.Run
import TapeMachine.Program
import TapeMachine.CommandLine.Arguments
import TapeMachine.CommandLine.Report
import TapeMachine.Main
import TapeMachine.Proofs.Code.Basic
import TapeMachine.Proofs.Behavior.Advance
import TapeMachine.Proofs.Behavior.Basic
import TapeMachine.Proofs.Code.Reach
import TapeMachine.Proofs.Code.Sweep
import TapeMachine.Proofs.Behavior.Text
import TapeMachine.Proofs.Counted.Weave
import TapeMachine.Proofs.Counted.Settle
import TapeMachine.Proofs.Counted.Rounds
import TapeMachine.Proofs.Tape.Growth
import TapeMachine.Proofs.Tape.Seeking
import TapeMachine.Proofs.Behavior.Reaches
import TapeMachine.Proofs.Behavior.Straight
import TapeMachine.Proofs.Counted.Fusion
import TapeMachine.Proofs.Code.Link
import TapeMachine.Proofs.Counted.Region
import TapeMachine.Proofs.Code.Closed
import TapeMachine.Proofs.Assembly.Folding
import TapeMachine.Proofs.Counted.Additions
import TapeMachine.Proofs.Assembly.Sparing
import TapeMachine.Proofs.Assembly.Closing
import TapeMachine.Proofs.Assembly.Taking
import TapeMachine.Proofs.Counted.Survey
import TapeMachine.Proofs.Assembly.Reached
import TapeMachine.Proofs.Refinement.Basic
import TapeMachine.Proofs.Refinement.Straight
import TapeMachine.Proofs.Counted.Replacement
import TapeMachine.Proofs.Code.Final
import TapeMachine.Proofs.Assembly.Finished
import TapeMachine.Proofs.Assembly.WellFormed
import TapeMachine.Proofs.Assembly.Thorough
import TapeMachine.Proofs.Assembly.Exhausted
import TapeMachine.Proofs.Refinement.Loops
import TapeMachine.Proofs.Refinement.Closing
import TapeMachine.Proofs.Refinement.Folding
import TapeMachine.Proofs.Refinement.Following
import TapeMachine.Proofs.Refinement.Dropped
import TapeMachine.Proofs.Refinement.Program
import TapeMachine.Proofs.Assembly.Extent
import TapeMachine.Proofs.Assembly.Faultless
import TapeMachine.Proofs.Refinement.Optimized
import TapeMachine.Proofs.Refinement.Halting
import TapeMachine.Proofs.Refinement.Reflection
import TapeMachine.Proofs.Language.Reading
import TapeMachine.Proofs.Language.Rendering
import TapeMachine.Proofs.Refinement.Session
import TapeMachine.Proofs.Regions.Level
import TapeMachine.Proofs.Regions.Visit
import TapeMachine.Proofs.Regions.Discipline
import TapeMachine.Proofs.Language.Places
import TapeMachine.Proofs.Language.Brackets
import TapeMachine.Proofs.Assembly.Acceptance
import TapeMachine.Proofs.Regions.Leftovers
import TapeMachine.Proofs.Tape.Unbounded
import TapeMachine.Proofs.Regions.IdleEnds
import TapeMachine.Proofs.Terminal.Calls
import TapeMachine.Proofs.Terminal.Conversation
import TapeMachine.Proofs.Behavior.Range
import TapeMachine.Proofs.Limits.Bounded
import TapeMachine.Proofs.Limits.Exact
import TapeMachine.Proofs.Terminal.Visibility
import TapeMachine.Proofs.Counted.Linear
import TapeMachine.Proofs.Tape.Allocation
import TapeMachine.Proofs.Language.Lexing
import TapeMachine.Proofs.Listing.Lines
import TapeMachine.Proofs.Listing.Faithful
import TapeMachine.Proofs.Listing.Nesting
