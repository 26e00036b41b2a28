set_option autoImplicit false

namespace RuleFormula.Quoted

def escape? : Char → Option Char
  | 'n' => some '\n'
  | 't' => some '\t'
  | 'r' => some '\r'
  | '\'' => some '\''
  | '"' => some '"'
  | '\\' => some '\\'
  | _ => none

/-- How the text behind an opening quote goes on; places are counts of characters from there. -/
inductive Body where
  | closed (width : Nat)
  | badEscape (place : Nat) (c : Char)
  | unclosed
  deriving DecidableEq

def Body.shift (k : Nat) : Body → Body
  | closed width => closed (width + k)
  | badEscape place c => badEscape (place + k) c
  | unclosed => unclosed

def scan (quote : Char) : List Char → Body
  | [] => .unclosed
  | c :: cs =>
    if c = quote then .closed 1
    else if c = '\\' then
      match cs with
      | [] => .unclosed
      | e :: cs => if (escape? e).isSome then (scan quote cs).shift 2 else .badEscape 0 e
    else (scan quote cs).shift 1

/-- Every backslash goes with the character behind it; a pair that is no escape stands for that
character, and a backslash at the very end for itself. -/
def decodeBody : List Char → List Char
  | [] => []
  | '\\' :: c :: cs => (escape? c).getD c :: decodeBody cs
  | c :: cs => c :: decodeBody cs

def body : List Char → List Char
  | [] => []
  | quote :: cs => if cs.getLast? = some quote then cs.dropLast else cs

def decode (raw : String) : String := String.ofList (decodeBody (body raw.toList))

def encodeChar : Char → List Char
  | '\'' => ['\\', '\'']
  | '\\' => ['\\', '\\']
  | '\n' => ['\\', 'n']
  | '\t' => ['\\', 't']
  | '\r' => ['\\', 'r']
  | c => [c]

def encode (s : String) : String := "'" ++ String.ofList (s.toList.flatMap encodeChar) ++ "'"

theorem decodeBody_encodeChar (c : Char) (cs : List Char) :
    decodeBody (encodeChar c ++ cs) = c :: decodeBody cs := by
  unfold encodeChar
  split <;> try rfl
  next h₁ h₂ h₃ h₄ h₅ =>
    rw [List.singleton_append, decodeBody]
    rintro d ds rfl
    exact absurd rfl h₂

theorem decodeBody_encode (cs : List Char) : decodeBody (cs.flatMap encodeChar) = cs := by
  induction cs with
  | nil => rfl
  | cons c cs ih => rw [List.flatMap_cons, decodeBody_encodeChar, ih]

theorem decode_encode (s : String) : decode (encode s) = s := by
  have hb : body (encode s).toList = s.toList.flatMap encodeChar := by
    simp [encode, body]
  rw [decode, hb, decodeBody_encode, String.ofList_toList]

end RuleFormula.Quoted
