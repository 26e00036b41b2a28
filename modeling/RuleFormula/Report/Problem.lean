import RuleFormula.Formula
import RuleFormula.Text.Lines

set_option autoImplicit false

namespace RuleFormula

inductive Stage where
  | lexing | parsing
  deriving DecidableEq

def Stage.title : Stage → String
  | lexing => "Tokenizer error: "
  | parsing => "Parser error: "

structure Problem where
  stage : Stage
  message : String
  location : Option Location
  deriving DecidableEq

def LexError.problem (e : LexError) : Problem := ⟨.lexing, e.message, some e.location⟩

def ParseError.problem (e : ParseError) : Problem := ⟨.parsing, e.message, e.location⟩

def FormulaError.problem : FormulaError → Problem
  | lex e => e.problem
  | parse e => e.problem

namespace Problem

def located (p : Problem) : String := p.message ++ Location.describe p.location

def toText (p : Problem) : String := p.stage.title ++ p.located

/-- The numbered line of a source without its carriage returns; empty if there is no such line. -/
def sourceLine (source : String) (line : Nat) : String :=
  match line with
  | 0 => ""
  | index + 1 =>
    String.ofList (Text.dropTrailing (· == '\r') ((Text.lines source.toList)[index]?.getD []))

/-- The caret stands under the column of the place. -/
def render (source : String) (p : Problem) : String :=
  match p.location with
  | none => p.toText
  | some l =>
    let gutter := l.line.repr
    p.toText ++ "\n  " ++ gutter ++ " | " ++ sourceLine source l.line ++
      "\n  " ++ Text.blanks gutter.length ++ " | " ++ Text.blanks (l.column - 1) ++ "^"

end Problem

end RuleFormula
