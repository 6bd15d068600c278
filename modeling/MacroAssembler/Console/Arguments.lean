import MacroAssembler.Assembly.Event
import MacroAssembler.Tracing

/-!
# Arguments of the command line

The arguments are first read into the settings they mention, in order, and the settings are then
checked together: that the input is named, that no value is missing or unknown, and that nothing
is said twice. A request for help or for the version counts at the place where it is read.
-/

namespace MacroAssembler.Console

/-- What can be set on the command line. -/
inductive Setting where
  | input
  | json
  | quiet
  | logLevel
  | trace
  | help
  | version
  deriving DecidableEq

namespace Setting

def all : List Setting := [input, json, quiet, logLevel, trace, help, version]

/-- The name that follows two hyphens. -/
def long : Setting → String
  | input => "input"
  | json => "json"
  | quiet => "quiet"
  | logLevel => "log-level"
  | trace => "trace"
  | help => "help"
  | version => "version"

/-- The letter that follows one hyphen. -/
def short? : Setting → Option Char
  | input => some 'i'
  | quiet => some 'q'
  | help => some 'h'
  | version => some 'V'
  | _ => none

/-- The setting has a value. -/
def takesValue : Setting → Bool
  | input | json | logLevel | trace => true
  | quiet | help | version => false

def ofLong? (name : List Char) : Option Setting := all.find? fun s => s.long.toList = name

def ofShort? (letter : Char) : Option Setting := all.find? fun s => s.short? = some letter

/-- The value is one that the setting can have. -/
def permits (s : Setting) (value : String) : Bool :=
  s ≠ logLevel || (LogLevel.ofName? value).isSome

end Setting

/-- Why arguments are not settings for a run. -/
inductive ArgumentError where
  | helpRequested
  | versionRequested
  | unknownArgument (argument : String)
  | missingValue (s : Setting)
  | missingInput
  | invalidValue (s : Setting) (value : String)
  | repeatedSetting (s : Setting)
  deriving DecidableEq

/-- A setting as it is mentioned, with the value that goes with it. -/
structure Mention where
  setting : Setting
  value? : Option String := none
  deriving DecidableEq

namespace Mention

/-- The value that stands after an equals sign or directly after a letter; equals signs at its
start do not belong to it. -/
def attached (s : Setting) (value : List Char) : Mention :=
  ⟨s, some (String.ofList (value.dropWhile (· = '=')))⟩

/-- A setting without a value, unless it asks to be shown something. -/
def bare (s : Setting) : Except ArgumentError Mention :=
  match s with
  | .help => .error .helpRequested
  | .version => .error .versionRequested
  | s => .ok ⟨s, none⟩

/-- The settings of a group of letters after one hyphen. The first letter whose setting takes a
value takes what is left of the group. -/
def ofLetters : List Char → Except ArgumentError (List Mention)
  | [] => .ok []
  | c :: rest =>
      match Setting.ofShort? c with
      | none => .error (.unknownArgument (String.ofList ['-', c]))
      | some s =>
          if s.takesValue ∧ rest ≠ [] then .ok [attached s rest]
          else do
            let m ← bare s
            let ms ← ofLetters rest
            return m :: ms

/-- The settings of an argument that starts with a hyphen. -/
def ofArgument (argument : List Char) : Except ArgumentError (List Mention) := do
  match argument with
  | '-' :: '-' :: _ =>
      let body := argument.dropWhile (· = '-')
      match Setting.ofLong? (body.takeWhile (· ≠ '=')), body.dropWhile (· ≠ '=') with
      | none, _ => .error (.unknownArgument (String.ofList argument))
      | some s, [] => return [← bare s]
      | some s, _ :: value => if s.takesValue then .ok [attached s value] else return [← bare s]
  | '-' :: c :: rest => ofLetters (c :: rest)
  | _ => .error (.unknownArgument (String.ofList argument))

/-- The argument can be a value: it does not start with a hyphen, or is nothing but one. -/
def isValue (argument : String) : Bool :=
  match argument.toList with
  | '-' :: _ :: _ => false
  | _ => true

/-- The last setting of an argument waits for a value. -/
def awaited? (ms : List Mention) : Option Setting :=
  match ms.getLast? with
  | some ⟨s, none⟩ => if s.takesValue then some s else none
  | _ => none

/-- The settings of all arguments. A value may follow its setting as an argument of its own; after
two hyphens alone nothing may follow. -/
def ofArguments : List String → Except ArgumentError (List Mention)
  | [] => .ok []
  | "--" :: [] => .ok []
  | "--" :: argument :: _ => .error (.unknownArgument argument)
  | argument :: rest => do
      let ms ← ofArgument argument.toList
      match awaited? ms, rest with
      | some s, value :: rest =>
          if isValue value then return ms.dropLast ++ ⟨s, some value⟩ :: (← ofArguments rest)
          else return ms ++ (← ofArguments (value :: rest))
      | _, rest => return ms ++ (← ofArguments rest)

/-- The values that a setting is given. -/
def values (ms : List Mention) (s : Setting) : List String :=
  ms.filterMap fun m => if m.setting = s then m.value? else none

/-- How often a setting is mentioned. -/
def count (ms : List Mention) (s : Setting) : Nat := ms.countP (·.setting = s)

/-- What is wrong with the mentions of a setting: it lacks a value, it has one that is not
permitted, or it is mentioned again. -/
def fault? (ms : List Mention) (s : Setting) : Option ArgumentError :=
  if count ms s = 0 then none
  else if s.takesValue ∧ values ms s = [] then some (.missingValue s)
  else
    match (values ms s).find? fun v => !s.permits v with
    | some v => some (.invalidValue s v)
    | none => if 1 < count ms s then some (.repeatedSetting s) else none

/-- The first thing that is wrong with the mentions as a whole. A setting that waits for its value
when the arguments end comes before any other that is mentioned. -/
def firstFault? (ms : List Mention) : Option ArgumentError :=
  if count ms .input = 0 then some .missingInput
  else
    match (awaited? ms).filter fun s => values ms s = [] with
    | some s => some (.missingValue s)
    | none => Setting.all.findSome? (fault? ms)

end Mention

/-- The settings of a run. -/
structure Options where
  input : String
  json : Option String := none
  quiet : Bool := false
  logLevel : Option LogLevel := none
  trace : Option String := none
  deriving DecidableEq

namespace Options

/-- The settings that arguments give. -/
def ofArguments (arguments : List String) : Except ArgumentError Options := do
  let ms ← Mention.ofArguments arguments
  let first (s : Setting) : Option String := (Mention.values ms s).head?
  match Mention.firstFault? ms, first .input with
  | some e, _ => .error e
  | none, none => .error .missingInput
  | none, some input =>
      return {
        input
        json := first .json
        quiet := Mention.count ms .quiet ≠ 0
        logLevel := (first .logLevel).bind LogLevel.ofName?
        trace := first .trace }

/-- The lines that are traced: none, unless a range is given. -/
def tracing (o : Options) : Except String Tracing :=
  match o.trace with
  | none => .ok .off
  | some range => Tracing.ofText range

end Options

end MacroAssembler.Console
