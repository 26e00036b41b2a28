import RuleFormula.Command.Run

set_option autoImplicit false

namespace RuleFormula.Command

def usage : String :=
  "usage: formula [--max-depth N] (tokenize [--json] | parse [-p] | check) [FORMULA]"

partial def readAll (input : IO.FS.Stream) (bytes : ByteArray) : IO ByteArray := do
  let more ← input.read 65536
  if more.isEmpty then return bytes else readAll input (bytes ++ more)

def readInput : IO (Option ByteArray) := do
  let input ← IO.getStdin
  if ← input.isTty then return none else return some (← readAll input .empty)

end RuleFormula.Command

open RuleFormula.Command in
def main (args : List String) : IO UInt32 := do
  match Request.ofArguments? args with
  | none =>
    IO.eprintln usage
    return usageCode.toUInt32
  | some request =>
    let input ← if request.readsInput then readInput else pure none
    let exit := request.answer input
    IO.print exit.stdout
    IO.eprint exit.stderr
    return exit.code.toUInt32
