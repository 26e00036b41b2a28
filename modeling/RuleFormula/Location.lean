set_option autoImplicit false

namespace RuleFormula

/-- `offset` counts characters from zero; `line` and `column` count from one. -/
structure Location where
  offset : Nat
  line : Nat
  column : Nat
  deriving DecidableEq

namespace Location

def start : Location := ⟨0, 1, 1⟩

instance : Inhabited Location := ⟨start⟩

def step (l : Location) (c : Char) : Location :=
  if c = '\n' then ⟨l.offset + 1, l.line + 1, 1⟩ else ⟨l.offset + 1, l.line, l.column + 1⟩

def advance (l : Location) (cs : List Char) : Location := cs.foldl step l

@[simp] theorem advance_nil (l : Location) : l.advance [] = l := rfl

@[simp] theorem advance_cons (l : Location) (c : Char) (cs : List Char) :
    l.advance (c :: cs) = (l.step c).advance cs := rfl

theorem advance_append (l : Location) (cs ds : List Char) :
    l.advance (cs ++ ds) = (l.advance cs).advance ds := by
  simp [advance]

theorem offset_step (l : Location) (c : Char) : (l.step c).offset = l.offset + 1 := by
  unfold step; split <;> rfl

theorem offset_advance (l : Location) (cs : List Char) :
    (l.advance cs).offset = l.offset + cs.length := by
  induction cs generalizing l with
  | nil => rfl
  | cons c cs ih => simp [ih, offset_step]; omega

def le (a b : Location) : Bool :=
  a.offset < b.offset || a.offset = b.offset &&
    (a.line < b.line || a.line = b.line && a.column ≤ b.column)

def sort (ls : List Location) : List Location := ls.mergeSort le

def toText (l : Location) : String := "line " ++ l.line.repr ++ ", column " ++ l.column.repr

def describe : Option Location → String
  | some l => " at " ++ l.toText
  | none => ""

end Location

end RuleFormula
