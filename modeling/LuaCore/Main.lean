import LuaCore.Command

namespace LuaCore

def faultOf : IO.Error → InputFault
  | .noFileOrDirectory .. => .missing
  | .inappropriateType .. => .directory
  | .illegalOperation .. => .directory
  | e => .other (toString e)

def readInput (file : Option String) : IO (Except InputFault String) := do
  try
    let bytes ←
      match file with
      | some path => IO.FS.readBinFile path
      | none => (← IO.getStdin).readBinToEnd
    return Command.decode bytes
  catch e => return .error (faultOf e)

end LuaCore

open LuaCore in
def main (args : List String) : IO UInt32 := do
  let report ←
    match Command.ofArgs? args with
    | some c => do
      let limit ← IO.getEnv Command.limitVariable
      pure (c.execute limit (← readInput c.file))
    | none => pure .usage
  (← IO.getStdout).putStr report.stdout
  (← IO.getStderr).putStr report.stderr
  return report.code.toUInt32
