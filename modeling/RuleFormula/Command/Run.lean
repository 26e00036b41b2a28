import RuleFormula.Command.Arguments
import RuleFormula.Command.Basic

/-! A run of the program, from its arguments and its input to what it prints. -/
set_option autoImplicit false

namespace RuleFormula.Command

structure Exit where
  code : Nat
  stdout : String
  stderr : String
  deriving DecidableEq

def version : String := "formula 0.1.0"

def endLine (s : String) : String := if s.toList.getLast? = some '\n' then s else s ++ "\n"

/-- A formula from the input: all of it but the line ends behind it. -/
def formulaOfInput (input : ByteArray) : Except CommandError String :=
  match String.fromUTF8? input with
  | none => .error .invalidText
  | some s =>
    .ok (String.ofList (Text.dropTrailing (fun c => c == '\r' || c == '\n') s.toList))

/-- The formula of a run: the argument, else the input. A terminal is no input. -/
def formula (argument : Option String) (input : Option ByteArray) : Except CommandError String :=
  match argument, input with
  | some s, _ => .ok s
  | none, some bytes => formulaOfInput bytes
  | none, none => .error .noInput

def output (verb : Verb) (switch : Bool) (limit : Nat) (source : String) :
    Except CommandError String :=
  match verb with
  | .tokenize => if switch then tokenJson true source else tokenTable source
  | .parse => treeJson switch limit source
  | .check => (check limit source).map CheckReport.toText

def exit : Except CommandError String → Exit
  | .ok text => ⟨0, endLine text, ""⟩
  | .error e => ⟨1, "", e.message ++ "\n"⟩

def Request.readsInput : Request → Bool
  | run _ _ _ none => true
  | _ => false

def Request.answer (input : Option ByteArray) : Request → Exit
  | version => ⟨0, endLine Command.version, ""⟩
  | run verb switch limit argument =>
    exit ((formula argument input).bind (output verb switch limit))

def usageCode : Nat := 2

end RuleFormula.Command
