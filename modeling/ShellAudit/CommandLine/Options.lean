-- SUMMARY: The switches of the command line, and what a list of arguments asks for.
import ShellAudit.Path

/-!
# Options

Switches may stand before and behind the script. A long switch may have its
value behind an equals sign; short switches may be written together, the value
of the last one following directly. Two dashes end the switches. The values are
looked at in the order in which their switches first appear, and then the script;
the first flaw decides what becomes of the request.
-/

namespace ShellAudit.CommandLine

inductive Switch where
  | output
  | format
  | verbose
  | fix
  | fixOutput
  | version
  | help
deriving DecidableEq, Repr, Inhabited

namespace Switch

def ofLong? : String → Option Switch
  | "--output" => some output
  | "--format" => some format
  | "--verbose" => some verbose
  | "--fix" => some fix
  | "--fix-output" => some fixOutput
  | "--version" => some version
  | "--help" => some help
  | _ => none

def ofShort? : Char → Option Switch
  | 'o' => some output
  | 'f' => some format
  | 'v' => some verbose
  | _ => none

def takesValue : Switch → Bool
  | output | format | fixOutput => true
  | _ => false

end Switch

/-- The switches with their values, and the other arguments, in order. -/
structure Arguments where
  switches : List (Switch × String) := []
  operands : List String := []
deriving Repr, Inhabited

namespace Arguments

/-- Adds a switch; one that takes no value has the empty text. -/
def add (a : Arguments) (s : Switch) (value : String) : Arguments :=
  { a with switches := a.switches ++ [(s, value)] }

/-- The last value of a switch. -/
def value? (a : Arguments) (s : Switch) : Option String :=
  (a.switches.findRev? (·.1 == s)).map (·.2)

/-- Whether a switch is given. -/
def has (a : Arguments) (s : Switch) : Bool := (a.value? s).isSome

/-- Reads short switches that are written together. The last of them may still
want its value. -/
def readShort (a : Arguments) : List Char → Option (Arguments × Option Switch)
  | [] => some (a, none)
  | c :: cs =>
    match Switch.ofShort? c with
    | none => none
    | some s =>
      if s.takesValue then
        if cs = [] then some (a, some s) else some (a.add s (String.ofList cs), none)
      else readShort (a.add s "") cs

/-- Reads a long switch, which may still want its value. -/
def readLong (a : Arguments) (argument : List Char) : Option (Arguments × Option Switch) :=
  let name := argument.takeWhile (· ≠ '=')
  match Switch.ofLong? (String.ofList name), argument.drop name.length with
  | none, _ => none
  | some s, [] => if s.takesValue then some (a, some s) else some (a.add s "", none)
  | some s, _ :: value => if s.takesValue then some (a.add s (String.ofList value), none) else none

/-- Reads arguments one after the other; `none` if they cannot be read. -/
def read (a : Arguments) : List String → Option Arguments
  | [] => some a
  | argument :: rest =>
    let step :=
      match argument.toList with
      | '-' :: '-' :: _ => readLong a argument.toList
      | '-' :: c :: cs => readShort a (c :: cs)
      | _ => some ({ a with operands := a.operands ++ [argument] }, none)
    if argument = "--" then some { a with operands := a.operands ++ rest }
    else
      match step, rest with
      | none, _ => none
      | some (a, none), rest => read a rest
      | some (_, some _), [] => none
      | some (a, some s), value :: rest => read (a.add s value) rest

end Arguments

/-- How a script is to be audited. -/
structure Options where
  script : String
  output : Option String
  format : String
  verbose : Bool
  fix : Bool
  fixOutput : Option String
deriving DecidableEq, Repr, Inhabited

inductive Request where
  | audit (options : Options)
  | version
  | help
  | misuse
  /-- A path holds a null character. -/
  | nullInPath
deriving DecidableEq, Repr, Inhabited

namespace Request

/-- The report formats that can be asked for. -/
def formats : List String := ["text", "json"]

/-- What becomes of a request because of the value of a switch. -/
def flaw? (value : String) : Switch → Option Request
  | .format => if formats.contains value then none else some misuse
  | .output | .fixOutput => if Path.hasNull value then some nullInPath else none
  | _ => none

/-- What becomes of a request because of the first switch with a flaw. -/
def firstFlaw? (a : Arguments) : Option Request :=
  (a.switches.map (·.1)).eraseDups.findSome? fun s => flaw? ((a.value? s).getD "") s

/-- The request for an audit of a script. -/
def ofScript (a : Arguments) (script : String) : Request :=
  audit
    { script := script
      output := (a.value? .output).filter (· ≠ "")
      format := (a.value? .format).getD "text"
      verbose := a.has .verbose
      fix := a.has .fix
      fixOutput := (a.value? .fixOutput).filter (· ≠ "") }

/-- What arguments ask for. A question about the program itself is answered
whatever else is asked, that for the version first. -/
def ofArguments (a : Arguments) : Request :=
  if a.has .version then version
  else if a.has .help then help
  else
    match firstFlaw? a, a.operands with
    | some flaw, _ => flaw
    | none, [] => misuse
    | none, script :: more =>
      if Path.hasNull script then nullInPath
      else if more = [] then ofScript a script
      else misuse

def ofList (arguments : List String) : Request :=
  match Arguments.read {} arguments with
  | some a => ofArguments a
  | none => misuse

end Request

end ShellAudit.CommandLine
