/-
**Arguments.**

A command line names a file, then what to do with it, mixed with options. Words are first read as
`Item`s, which settles where the values of options are; then the items are collected, which settles
what may be given once, what excludes what, and which values make sense.

* `items` splits a command line into its items;
* `Arguments.ofItems?` collects them, and `Arguments.read?` does both: there is no answer for a
  command line that is not understood.
-/

import TapeMachine.Pass
import TapeMachine.Terminal

namespace TapeMachine.CommandLine

/-! ### Words -/

/-- An option without a value. -/
inductive Flag where
  | allOptimizations
  | noOptimize
  | quiet
  deriving DecidableEq

/-- An option with a value. -/
inductive Setting where
  | optimizations
  | eof
  | input
  | bufferSize
  | maxSteps
  deriving DecidableEq

/-- An option. -/
inductive Parameter where
  | flag (flag : Flag)
  | setting (setting : Setting)
  deriving DecidableEq

/-- The option of a long name. -/
def Parameter.ofLong? (name : String) : Option Parameter :=
  match name with
  | "optimizations" => some (.setting .optimizations)
  | "all-optimizations" => some (.flag .allOptimizations)
  | "no-optimize" => some (.flag .noOptimize)
  | "eof" => some (.setting .eof)
  | "input" => some (.setting .input)
  | "buffer-size" => some (.setting .bufferSize)
  | "max-steps" => some (.setting .maxSteps)
  | "quiet" => some (.flag .quiet)
  | _ => none

/-- The option of a letter. -/
def Parameter.ofShort? : Char → Option Parameter
  | 'o' => some (.setting .optimizations)
  | 'a' => some (.flag .allOptimizations)
  | 'i' => some (.setting .input)
  | 'b' => some (.setting .bufferSize)
  | 'q' => some (.flag .quiet)
  | _ => none

/-- A piece of a command line with a meaning of its own. -/
inductive Item where
  | flag (flag : Flag)
  | value (setting : Setting) (text : List Char)
  | positional (text : List Char)
  deriving DecidableEq

/-- What a word that begins with a dash says: some items, and a setting whose value is the next
word. -/
abbrev Options := List Item × Option Setting

/-- Reads letters behind a dash. A setting takes the rest of the word as its value, without an equals
sign in front; if nothing is left, its value is the next word. -/
def letters? : List Char → Option Options
  | [] => some ([], none)
  | letter :: rest =>
    match Parameter.ofShort? letter with
    | none => none
    | some (.flag flag) => (letters? rest).map fun options => (.flag flag :: options.1, options.2)
    | some (.setting setting) =>
      match rest with
      | [] => some ([], some setting)
      | '=' :: value => some ([.value setting value], none)
      | value => some ([.value setting value], none)

/-- Reads what stands behind two dashes: a name, or a name, an equals sign and a value. -/
def long? (word : List Char) : Option Options :=
  match Parameter.ofLong? (String.ofList (word.takeWhile (· ≠ '='))), word.dropWhile (· ≠ '=') with
  | some (.flag flag), [] => some ([.flag flag], none)
  | some (.setting setting), [] => some ([], some setting)
  | some (.setting setting), _ :: value => some ([.value setting value], none)
  | some (.flag _), _ :: _ => none
  | none, _ => none

/-- How a word is to be read. -/
inductive Word where
  /-- Two dashes: only positional words follow. -/
  | separator
  /-- Options, or nothing that is known. -/
  | options (options : Option Options)
  /-- Anything else. A single dash is no option. -/
  | plain
  deriving DecidableEq

/-- How a word is to be read. -/
def Word.ofChars : List Char → Word
  | ['-', '-'] => .separator
  | '-' :: '-' :: rest => .options (long? rest)
  | ['-'] => .plain
  | '-' :: rest => .options (letters? rest)
  | _ => .plain

/-- The items of a command line whose first word is the value of a setting, if one is given. -/
def items : Option Setting → List (List Char) → Option (List Item)
  | none, [] => some []
  | some _, [] => none
  | expected, word :: rest =>
    match Word.ofChars word, expected with
    | .plain, some setting => (items none rest).map (.value setting word :: ·)
    | .plain, none => (items none rest).map (.positional word :: ·)
    | .separator, none => some (rest.map .positional)
    | .options (some options), none => (items options.2 rest).map (options.1 ++ ·)
    | .options none, _ | .separator, some _ | .options (some _), some _ => none

/-! ### Meaning -/

/-- What can be done with a file. -/
inductive Command where
  /-- Print the symbols of the source. -/
  | tokens
  /-- Print the listing of the program. -/
  | bytecode
  /-- Run the program. -/
  | run
  deriving DecidableEq

namespace Command

/-- All commands. -/
def all : List Command := [tokens, bytecode, run]

/-- The name by which a command is asked for. -/
def name : Command → String
  | tokens => "tokens"
  | bytecode => "bytecode"
  | run => "run"

/-- The command of a name. -/
def ofName? (name : String) : Option Command :=
  all.find? fun command => command.name = name

theorem ofName?_name (command : Command) : ofName? command.name = some command := by
  cases command <;> decide

end Command

/-- A command line that is understood. -/
structure Arguments where
  file : String
  commands : List Command
  passes : Passes
  policy : EndPolicy
  /-- Text that is typed ahead of the input. -/
  input : Option String
  bufferSize : Nat
  maxSteps : Option Nat
  quiet : Bool

/-- Reads an unsigned 64-bit number. -/
def number? (text : List Char) : Option Nat :=
  (Decimal.natural? text).filter (· < 0x10000000000000000)

/-- The texts of the positional items. -/
def positionals (items : List Item) : List String :=
  items.filterMap fun
    | .positional text => some (String.ofList text)
    | _ => none

/-- The values given to a setting. -/
def values (setting : Setting) (items : List Item) : List (List Char) :=
  items.filterMap fun
    | .value given text => if given = setting then some text else none
    | _ => none

/-- The value of a setting that may be given once and is read by `read?`, or else a default. -/
def single? (setting : Setting) (items : List Item) (default : α) (read? : List Char → Option α) :
    Option α :=
  match values setting items with
  | [] => some default
  | [text] => read? text
  | _ => none

/-- Whether a flag is given, which it may be once. -/
def given? (flag : Flag) (items : List Item) : Option Bool :=
  match items.count (.flag flag) with
  | 0 => some false
  | 1 => some true
  | _ => none

namespace Arguments

/-- The choice of passes: all of them unless some are named, and none only if nothing else is
asked for. -/
def passes? (items : List Item) : Option Passes := do
  let all ← given? .allOptimizations items
  let optimized := !(← given? .noOptimize items)
  let named ← (values .optimizations items).mapM fun text => Pass.ofName? (String.ofList text)
  if optimized then
    return if all || named.isEmpty then Passes.all else Passes.ofList named
  else if all || !named.isEmpty then
    none
  else
    return Passes.none

/-- Collects the items of a command line. -/
def ofItems? (items : List Item) : Option Arguments := do
  match positionals items with
  | [] => none
  | file :: commands =>
    let commands ← commands.mapM Command.ofName?
    let passes ← passes? items
    let policy ← single? .eof items .minusOne fun text => EndPolicy.ofName? (String.ofList text)
    let input ← single? .input items none fun text => some (some (String.ofList text))
    let bufferSize ← single? .bufferSize items 8192 number?
    let maxSteps ← single? .maxSteps items none fun text => (number? text).map some
    let quiet ← given? .quiet items
    return ⟨file, commands, passes, policy, input, bufferSize, maxSteps, quiet⟩

/-- Reads a command line. -/
def read? (words : List String) : Option Arguments := do
  ofItems? (← items none (words.map String.toList))

/-- What is to be done, where nothing said means to run. -/
def wants (arguments : Arguments) (command : Command) : Bool :=
  if arguments.commands.isEmpty then command = .run else arguments.commands.contains command

end Arguments

end TapeMachine.CommandLine
