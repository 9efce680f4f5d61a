import Minterm.Graph
import Minterm.Query

/-! The command line: a command with its arguments, options before or after them, and what it prints.
    A command line that asks for nothing sensible ends with status 2, a task that fails with status 1;
    neither prints anything on the standard output. -/

namespace Minterm

/-- What a command line can ask for. -/
inductive Command where
  | simplify (text : String) (json : Bool)
  | evaluate (text : String) (bindings : Bindings Value)
  | karnaugh (text : String) (vars : List String)
  | implicants (text : String) (vars : List String)
  | minimize (text : String) (vars : List String)
  | normalForm (form : Form) (text : String)
  | equal (left right : String)
  | table (text : String)
  | dot (text : String)
  | gate (name : String) (mode : Mode) (inputs : List Value)
  deriving Repr

/-- What a run leaves behind. -/
structure Outcome where
  status : UInt8
  stdout : String
  /-- What went wrong, if anything. -/
  complaint : Option String
  deriving DecidableEq, Repr

namespace CommandLine

/-! ### Splitting arguments from options -/

/-- The options of a command, by name: those without and those with a value. -/
structure Options where
  flags : List String
  valued : List String

/-- The arguments of a command and its options in the order in which they were given. -/
structure Arguments where
  positional : List String
  flags : List String
  valued : List (String × String)
  deriving DecidableEq, Repr

/-- A dash alone is an ordinary argument. -/
def isOption (argument : String) : Bool := argument.startsWith "-" && argument != "-"

/-- The parts before and after the first `=`. -/
def splitAtEquals (text : String) : String × Option String :=
  let cs := text.toList
  let name := String.ofList (cs.takeWhile (· != '='))
  match cs.dropWhile (· != '=') with
  | [] => (name, none)
  | _ :: value => (name, some (String.ofList value))

/-- Sorts the arguments of a command. After `--` there are no more options; the value of an option
    follows it directly after `=` or as the next argument, which must then not look like an option. -/
def sort (options : Options) : List String → Option Arguments
  | [] => some ⟨[], [], []⟩
  | argument :: rest =>
    if argument = "--" then some ⟨rest, [], []⟩
    else if isOption argument then
      match splitAtEquals argument with
      | (name, none) =>
        if name ∈ options.flags then
          (sort options rest).map fun sorted => { sorted with flags := name :: sorted.flags }
        else if name ∈ options.valued then
          match rest with
          | [] => none
          | value :: rest =>
            if isOption value then none
            else (sort options rest).map fun sorted => { sorted with valued := (name, value) :: sorted.valued }
        else none
      | (name, some value) =>
        if name ∈ options.valued then
          (sort options rest).map fun sorted => { sorted with valued := (name, value) :: sorted.valued }
        else none
    else (sort options rest).map fun sorted => { sorted with positional := argument :: sorted.positional }

/-! ### Reading a command -/

def value? (text : String) : Option Value :=
  if text = "0" then some (.bit 0)
  else if text = "1" then some (.bit 1)
  else if text = "true" then some (.bool true)
  else if text = "false" then some (.bool false)
  else none

/-- A binding in the form `name=value`. -/
def binding? (text : String) : Option (String × Value) :=
  match splitAtEquals text with
  | (name, some value) => (value? value).map fun value => (name, value)
  | (_, none) => none

def verboseFlag : String := "--verbose"
def jsonFlag : String := "--json"
def setOption : String := "--set"
def modeOption : String := "--mode"

/-- The options that a command takes besides the common flag. -/
def optionsOf (command : String) : Options :=
  if command = "parse" then ⟨[verboseFlag, jsonFlag], [setOption]⟩
  else if command = "gate" then ⟨[verboseFlag], [modeOption]⟩
  else ⟨[verboseFlag], []⟩

/-- Bindings win over the request for JSON. -/
def parseCommand? (text : String) (arguments : Arguments) : Option Command := do
  let bindings ← arguments.valued.mapM fun (_, value) => binding? value
  if bindings.isEmpty then return .simplify text (arguments.flags.contains jsonFlag)
  else return .evaluate text (Bindings.ofList bindings)

/-- The mode is boolean unless an option says otherwise, which may be given once. -/
def gateCommand? (name : String) (inputs : List String) (arguments : Arguments) : Option Command := do
  let inputs ← inputs.mapM value?
  let mode ← match arguments.valued with
    | [] => some Mode.boolean
    | [(_, mode)] => (Mode.ofName mode).toOption
    | _ => none
  return .gate name mode inputs

def command? (command : String) (arguments : Arguments) : Option Command :=
  match command, arguments.positional with
  | "parse", [text] => parseCommand? text arguments
  | "karnaugh", text :: vars => some (.karnaugh text vars)
  | "implicants", text :: vars => some (.implicants text vars)
  | "minimize", text :: vars => some (.minimize text vars)
  | "cnf", [text] => some (.normalForm .cnf text)
  | "dnf", [text] => some (.normalForm .dnf text)
  | "equal", [left, right] => some (.equal left right)
  | "table", [text] => some (.table text)
  | "dot", [text] => some (.dot text)
  | "gate", name :: inputs => gateCommand? name inputs arguments
  | _, _ => none

/-- The command that a list of arguments spells. A flag may be given once, the common one also before
    the command. -/
def ofArguments? (arguments : List String) : Option Command := do
  let command :: rest := if arguments.head? = some verboseFlag then arguments.tail else arguments | none
  let sorted ← sort (optionsOf command) rest
  if sorted.flags = sorted.flags.eraseDups then command? command sorted else none

/-! ### Answers -/

def line (text : String) : String := text ++ "\n"

def bitsLine (bits : List Bool) : String := " ".intercalate (bits.map fun b => bitText [b])

/-- The truth table of an expression over its own variables, under the names and the text as given. -/
def tableText (text : String) : Except Fault String := do
  let e ← Expr.ofText text
  let table ← Query.truthTable text e.vars
  let heading := line (" ".intercalate e.vars ++ " | " ++ text)
  let rows := (table.inputs.zip table.outputs).map fun (inputs, outputs) =>
    line (bitsLine inputs ++ " | " ++ bitsLine outputs)
  return heading ++ String.join rows

/-- What a command prints. -/
def answer : Command → Except Fault String
  | .simplify text json => do
    let e ← Query.simplified text
    return line (if json then e.jsonText else e.text)
  | .evaluate text bindings => do
    let value ← Query.evaluateWithin Expr.maxPasses text bindings
    return line value.text
  | .karnaugh text vars => do
    let map ← Query.map text vars
    return map.display
  | .implicants text vars => do
    let terms ← Query.primeTerms text vars
    return String.join (terms.map line)
  | .minimize text vars => do
    let minimal ← Query.minimized text vars
    return line minimal
  | .normalForm form text => do
    let converted ← Query.normalForm form text
    return line converted
  | .equal left right => do
    let equal ← Query.equivalent left right
    return line (Expr.litText equal)
  | .table text => tableText text
  | .dot text => do
    let e ← Query.simplified text
    return e.dot {}
  | .gate name mode inputs => do
    let value ← Query.applyGate name mode inputs
    return line value.text

def run (arguments : List String) : Outcome :=
  match ofArguments? arguments with
  | none => ⟨2, "", some "usage: COMMAND ARGUMENT... [OPTION]..."⟩
  | some command =>
    match answer command with
    | .ok text => ⟨0, text, none⟩
    | .error fault => ⟨1, "", some fault.message⟩

end CommandLine
end Minterm
