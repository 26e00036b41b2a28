import RuleFormula.Expr.Render

set_option autoImplicit false

namespace RuleFormula

/-- Fields and functions are listed once each, in the order of their first use. -/
structure CheckReport where
  canonical : String
  fields : List String
  functions : List String
  deriving DecidableEq

namespace CheckReport

def ofExpr (e : Expr) : CheckReport :=
  ⟨e.render, (e.fieldReferences.map Expr.renderPath).eraseDups, e.functionNames.eraseDups⟩

def listing (title : String) (items : List String) : String :=
  if items.isEmpty then "" else title ++ ": " ++ ", ".intercalate items ++ "\n"

def toText (r : CheckReport) : String :=
  "Syntax is valid\n" ++ "Canonical: " ++ r.canonical ++ "\n" ++ listing "Fields" r.fields ++
    listing "Functions" r.functions

end CheckReport

end RuleFormula
