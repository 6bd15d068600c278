import MacroAssembler.Assembly.Session
import MacroAssembler.Console.Arguments
import MacroAssembler.Console.Directory
import MacroAssembler.Console.StatementFile
import MacroAssembler.Diagnostic.Json

/-!
# The command

A run reads the arguments, then the statement file, processes its statements, and reports the
diagnostics: as lines of JSON in a file if one is named, and as lines of text unless the run is to
be quiet. What the assembler reports about its own working is printed before.
-/

namespace MacroAssembler.Console

/-- The name and the version of the program. -/
def versionText : String := "HLASM Semantic Processor 0.1.0"

/-- What the program is called with. -/
def usageLines : List String :=
  ["USAGE:", "    hlasmc [FLAGS] [OPTIONS] --input <input>"]

/-- A setting in the help text: how it is written, padded to a width, and what it is for. -/
def helpLine (width : Nat) (written purpose : String) : String :=
  "    " ++ written ++ String.ofList (List.replicate (width - written.length) ' ') ++ purpose

/-- The help text. -/
def helpLines : List String :=
  [versionText,
    "Runs the semantic checks of the High Level Assembler over a file of pre-split source "
      ++ "statements",
    ""] ++ usageLines ++
  ["", "FLAGS:",
    helpLine 17 "-h, --help" "Prints help information",
    helpLine 17 "-q, --quiet" "Do not print diagnostics to the console",
    helpLine 17 "-V, --version" "Prints version information",
    "", "OPTIONS:",
    helpLine 31 "-i, --input <input>" "YAML file listing the source statements to process",
    helpLine 31 "    --json <json>"
      "Write the diagnostics as JSON, one object per line, to the given file",
    helpLine 31 "    --log-level <log-level>"
      ("Print log messages of this level and above [possible values: error, warn, info, debug, "
        ++ "trace]"),
    helpLine 31 "    --trace <trace>"
      ("Prints each statement as the processing manager receives it.  Takes a line range: `all`, "
        ++ "`N`, `N:M`, `:M` or `N:`")]

namespace ArgumentError

/-- What is wrong with the arguments, in words. -/
def message : ArgumentError → String
  | .helpRequested => "help requested"
  | .versionRequested => "version requested"
  | .unknownArgument argument =>
      "error: Found argument '" ++ argument
        ++ "' which wasn't expected, or isn't valid in this context"
  | .missingValue s =>
      "error: The argument '--" ++ s.long ++ " <" ++ s.long
        ++ ">' requires a value but none was supplied"
  | .missingInput =>
      "error: The following required arguments were not provided: --input <input>"
  | .invalidValue s value =>
      "error: '" ++ value ++ "' isn't a valid value for '--" ++ s.long ++ " <" ++ s.long ++ ">'"
  | .repeatedSetting s =>
      "error: The argument '--" ++ s.long
        ++ "' was provided more than once, but cannot be used multiple times"

/-- What is done instead of a run. -/
def script : ArgumentError → Script
  | .helpRequested => .printAll helpLines (.exit 0)
  | .versionRequested => .print versionText (.exit 0)
  | e => .complain e.message (usageLines.foldr .complain (.exit 1))

end ArgumentError

/-- Why a run does not end well. -/
inductive RunFault where
  | input
  | diagnostics
  | output
  | configuration
  deriving DecidableEq

/-- The number of a fault. -/
def RunFault.number : RunFault → Nat
  | input => 1
  | diagnostics => 2
  | output => 3
  | configuration => 4

/-- End a run with a fault: its number is told, and the exit status is 1 for all of them. -/
def Script.fail (f : RunFault) : Script := .complain ("Error: " ++ toString f.number) (.exit 1)

/-- A report as a line: a trace always, anything else only if its level is wanted. The finer
levels also name the part of the program that reports. -/
def eventLine? (limit : Option LogLevel) (e : Event) : Option String :=
  match e with
  | .traced .. => some e.text
  | e =>
      if limit.any e.level.isWithin then
        let origin := match e.level with
          | .debug | .trace => "(1) " ++ e.topic ++ ": "
          | _ => ""
        some ("[" ++ e.level.text ++ "] " ++ origin ++ e.text)
      else none

/-- The session after all statements of a file. -/
def processAll (file : String) (tracing : Tracing) (statements : List SourceStatement) :
    Except Fault Session := do
  let step (s : Session) (p : SourceStatement × Nat) : Except Fault Session :=
    let (st, names) := p.1.toStatement p.2 s.assembly.names
    { s with assembly := { s.assembly with names } }.process st
  (← statements.zipIdx.foldlM step (.start file tracing)).finish

/-- Report the diagnostics on the console, and end the run. -/
def reportScript (o : Options) (ds : List Diagnostic) : Script :=
  .printAll (if o.quiet then [] else ds.map (Diagnostic.reportLine o.input))
    (if ds.isEmpty then .exit 0 else .fail .diagnostics)

/-- Report the diagnostics of a session where they are wanted, and end the run. -/
def outputScript (o : Options) (ds : List Diagnostic) : Script :=
  match o.json with
  | none => reportScript o ds
  | some path =>
      .write path (ds.map Diagnostic.json) fun
        | .ok () => reportScript o ds
        | .error reason =>
            .print ("Could not create " ++ path ++ ": " ++ reason) (.fail .output)

/-- Process the statements of the input, and report. -/
def sessionScript (o : Options) (tracing : Tracing) (statements : List SourceStatement) : Script :=
  match processAll ((fileStem? o.input).getD "OPENCODE") tracing statements with
  | .error f => .complain f.message (.exit 101)
  | .ok s =>
      .printAll (s.assembly.events.filterMap (eventLine? o.logLevel))
        (outputScript o s.diagnostics)

/-- Read the input, process it, and report. -/
def inputScript (o : Options) (tracing : Tracing) : Script :=
  .read o.input fun
    | .error reason =>
        .print ("Could not read " ++ o.input ++ ": " ++ reason) (.fail .input)
    | .ok text =>
        match SourceStatement.ofFile? text with
        | none => .print "Could not parse statements:" (.fail .input)
        | some statements => sessionScript o tracing statements

/-- A run of the command with its arguments. -/
def command (arguments : List String) : Script :=
  match Options.ofArguments arguments with
  | .error e => e.script
  | .ok o =>
      match o.tracing with
      | .error message => .print message (.fail .configuration)
      | .ok tracing => inputScript o tracing

end MacroAssembler.Console
