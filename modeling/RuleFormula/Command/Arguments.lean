import RuleFormula.Formula

/-! Arguments of the command line. A limit may stand in front of the command and behind it, once on
each side, and the one behind wins. The command takes its switch once and one formula. Asking for
help, by `--help`, `-h` or `help`, is left out: it ends a run without an error, and is taken for a
wrong use here. -/
set_option autoImplicit false

namespace RuleFormula.Command

inductive Verb where
  | tokenize | parse | check
  deriving DecidableEq

def Verb.ofName? : String → Option Verb
  | "tokenize" => some .tokenize
  | "parse" => some .parse
  | "check" => some .check
  | _ => none

/-- The spellings of the one switch of a command. -/
def Verb.switches : Verb → List String
  | tokenize => ["--json"]
  | parse => ["-p", "--pretty"]
  | check => []

/-- What the command line asks for. `switch` asks for JSON from `tokenize`, for pretty JSON from
`parse`. -/
inductive Request where
  | version
  | run (verb : Verb) (switch : Bool) (limit : Nat) (formula : Option String)
  deriving DecidableEq

/-- Digits, maybe behind a plus, that write a number below `2 ^ 64`. -/
def readLimit? (s : String) : Option Nat :=
  let digits := match s.toList with
    | '+' :: cs => cs
    | cs => cs
  let value := Nat.ofDigitChars 10 digits 0
  if !digits.isEmpty && digits.all Char.isDigit && value < UInt64.size then some value else none

def attachedLimit? (arg : String) : Option String :=
  let option := "--max-depth=".toList
  if option.isPrefixOf arg.toList then some (String.ofList (arg.toList.drop option.length))
  else none

def isOption (arg : String) : Bool := arg.toList.head? = some '-' && arg != "-"

structure Options where
  switch : Bool
  limit : Option Nat
  formula : Option String
  deriving DecidableEq

namespace Options

def none : Options := ⟨false, .none, .none⟩

def setLimit? (o : Options) (value : String) : Option Options :=
  if o.limit.isSome then .none
  else (readLimit? value).map fun n => { o with limit := some n }

def setSwitch? (o : Options) : Option Options :=
  if o.switch then .none else some { o with switch := true }

def setFormula? (o : Options) (formula : String) : Option Options :=
  if o.formula.isSome then .none else some { o with formula := some formula }

def read? (verb : Verb) (o : Options) : List String → Option Options
  | [] => some o
  | "--" :: args => args.foldlM setFormula? o
  | "--max-depth" :: args =>
    match args with
    | [] => .none
    | value :: args => (o.setLimit? value).bind fun o => read? verb o args
  | arg :: args =>
    match attachedLimit? arg with
    | some value => (o.setLimit? value).bind fun o => read? verb o args
    | .none =>
      if verb.switches.contains arg then o.setSwitch?.bind fun o => read? verb o args
      else if isOption arg then .none
      else (o.setFormula? arg).bind fun o => read? verb o args

end Options

def readRequest? (limit : Option Nat) : List String → Option Request
  | [] => none
  | "--version" :: _ => some .version
  | "-V" :: _ => some .version
  | "--max-depth" :: args =>
    match args with
    | [] => none
    | value :: args =>
      if limit.isSome then none
      else (readLimit? value).bind fun n => readRequest? (some n) args
  | arg :: args =>
    match attachedLimit? arg with
    | some value =>
      if limit.isSome then none
      else (readLimit? value).bind fun n => readRequest? (some n) args
    | none =>
      (Verb.ofName? arg).bind fun verb =>
        (Options.none.read? verb args).map fun o =>
          .run verb o.switch ((o.limit.or limit).getD defaultLimit) o.formula

/-- What the arguments ask for, or `none` if they are used wrongly. -/
def Request.ofArguments? (args : List String) : Option Request := readRequest? none args

end RuleFormula.Command
