/-
# The command line

`run` checks a workload and `workloads` lists them. Options take one value each,
after a blank or an equals sign, or right after a short option, and are given at
most once. A value does not begin with a dash unless it follows an equals sign
or is the dash itself.

The response to a command is an exit code, the texts to print and the trace to write
(`CommandLine.respond`).
-/
import Interleave.Duration.Reader
import Interleave.Simulation

namespace Interleave

namespace CommandLine

/-- What a call of the program prints, its exit code, and a trace to be written to a file. -/
structure Response where
  code : Nat
  stdout : String
  stderr : String
  trace : Option (String × String)

inductive Command where
  | version
  | help
  | workloads
  | run (s : Simulation)

/-- The options of `run`, by their long names. -/
def optionNames : List String :=
  ["workload", "nodes", "operations", "max-failed", "recovery", "order", "partitions", "timeout",
    "invocations", "seed", "trace-file"]

def shortName? : Char → Option String
  | 'w' => some "workload"
  | 'n' => some "nodes"
  | 'i' => some "invocations"
  | _ => none

/-- Options as given: names and values. -/
abbrev Options := List (String × String)

/-- Adds an option, unless it was given before. -/
def addOption? (given : Options) (name value : String) : Option Options :=
  if given.any (·.1 == name) then none else some (given ++ [(name, value)])

/-- Whether an argument can be the value of the option before it. -/
def isValue (arg : String) : Bool :=
  match arg.toList with
  | '-' :: _ :: _ => false
  | _ => true

/-- What follows the options: nothing, or a call for help. -/
inductive Reading where
  | options (given : Options)
  | help

/-- Reads an option with a value of its own or in the next argument. -/
def takeValue? (name : String) (own : Option String) (rest : List String) :
    Option (String × String × List String) :=
  match own, rest with
  | some value, rest => some (name, value, rest)
  | none, value :: rest => if isValue value then some (name, value, rest) else none
  | none, [] => none

/-- A long option and the value after its equals sign, if there is one. -/
def splitLong (body : List Char) : String × Option String :=
  (String.ofList (body.takeWhile (· ≠ '=')),
    match body.dropWhile (· ≠ '=') with
    | '=' :: value => some (String.ofList value)
    | _ => none)

/-- The value right after a short option. -/
def shortValue : List Char → Option String
  | [] => none
  | '=' :: value => some (String.ofList value)
  | value => some (String.ofList value)

/-- The option that an argument begins, with its value and the arguments after it. -/
def readOption? (arg : String) (rest : List String) : Option (String × String × List String) :=
  match arg.toList with
  | '-' :: '-' :: body =>
    let (name, own) := splitLong body
    if optionNames.contains name then takeValue? name own rest else none
  | '-' :: c :: body => do takeValue? (← shortName? c) (shortValue body) rest
  | _ => none

/-- How an option's value is read. -/
def checks (name value : String) : Bool :=
  match name with
  | "workload" => (Workload.parse value).toBool
  | "recovery" => (Recovery.parse value).toBool
  | "order" => (DeliveryOrder.parse value).toBool
  | "partitions" => (SplitMode.parse value).toBool
  | "timeout" => (Duration.read? value).isSome
  | "trace-file" => !value.isEmpty
  | _ => (Text.readNatural? UInt64.size value).isSome

/-- Whether an argument asks for the flag with this letter and this long name. A letter acts at
once, whatever stands behind it. -/
def isFlag (letter : Char) (long arg : String) : Bool :=
  arg = long ||
    match arg.toList with
    | '-' :: c :: _ => c = letter
    | _ => false

def asksHelp (arg : String) : Bool := isFlag 'h' "--help" arg

def asksVersion (arg : String) : Bool := isFlag 'V' "--version" arg

/-- Reads the arguments of `run`. Every step takes one argument at least. -/
def readOptions? : Nat → Options → List String → Option Reading
  | 0, _, _ => none
  | _ + 1, given, [] => some (.options given)
  | fuel + 1, given, arg :: rest =>
    if asksHelp arg then some .help
    else if arg = "--" then (if rest.isEmpty then some (.options given) else none)
    else
      match readOption? arg rest with
      | none => none
      | some (name, value, rest) =>
        if checks name value then
          match addOption? given name value with
          | none => none
          | some given => readOptions? fuel given rest
        else none

def valueOf (given : Options) (name fallback : String) : String :=
  ((given.find? (·.1 == name)).map (·.2)).getD fallback

def numberOf (given : Options) (name fallback : String) : Nat :=
  (Text.readNatural? UInt64.size (valueOf given name fallback)).getD 0

/-- The settings that the options ask for. -/
def configOf (given : Options) : Except SetupError Config := do
  let base : Config := { Config.default with
    maxFailed := numberOf given "max-failed" "0"
    recovery := ← Recovery.parse (valueOf given "recovery" "none")
    order := ← DeliveryOrder.parse (valueOf given "order" "fifo")
    timeout := (Duration.read? (valueOf given "timeout" "10s")).getD ⟨0⟩
    maxIterations := numberOf given "invocations" "1000"
    seed := (numberOf given "seed" "12345").toUInt64
    traceFile := (given.find? (·.1 == "trace-file")).map (·.2) }
  match given.find? (·.1 == "partitions") with
  | none => return base
  | some (_, mode) => return base.allowSplits (← SplitMode.parse mode)

def simulationOf (given : Options) : Except SetupError Simulation := do
  return {
    workload := ← Workload.parse (valueOf given "workload" "echo")
    nodes := numberOf given "nodes" "2"
    operations := numberOf given "operations" "1"
    config := ← configOf given }

/-- Reads the arguments; none if they cannot be understood. -/
def parse? : List String → Option Command
  | [] => none
  | ["help"] | ["help", "run"] | ["help", "workloads"] | ["help", "help"] => some .help
  | "workloads" :: [] | "workloads" :: ["--"] => some .workloads
  | "workloads" :: arg :: _ => if asksHelp arg then some .help else none
  | "run" :: args =>
    match readOptions? (args.length + 1) [] args with
    | none => none
    | some .help => some .help
    | some (.options given) => (simulationOf given).toOption.map .run
  | arg :: _ =>
    if asksVersion arg then some .version else if asksHelp arg then some .help else none

/-- `s` with blanks behind it up to `width` characters. -/
def padRight (width : Nat) (s : String) : String :=
  s ++ String.ofList (List.replicate (width - s.length) ' ')

def versionText : String := "distcheck-sim 0.1.0\n"

def helpText : String :=
  "Explore interleavings of sample distributed protocols\n\n"
    ++ "Usage: distcheck-sim <COMMAND>\n\n"
    ++ "Commands:\n"
    ++ "  workloads  List the built-in workloads\n"
    ++ "  run        Check a workload\n"
    ++ "  help       Print this message\n"

def workloadsText : String :=
  String.join (Workload.all.map fun w => padRight 10 w.name ++ " " ++ w.description ++ "\n")

/-- The trace file that a check asks for, if it failed. -/
def traceOf (s : Simulation) (summary : Summary) : Option (String × String) := do
  return (← s.config.traceFile, (← summary.report.failure?).report)

def respond : Command → Response
  | .version => ⟨0, versionText, "", none⟩
  | .help => ⟨0, helpText, "", none⟩
  | .workloads => ⟨0, workloadsText, "", none⟩
  | .run s =>
    match s.run with
    | .error e => ⟨2, "", "error: " ++ e.message ++ "\n", none⟩
    | .ok summary =>
      ⟨if summary.isSuccess then 0 else 1, summary.text, "", traceOf s summary⟩

end CommandLine

end Interleave
