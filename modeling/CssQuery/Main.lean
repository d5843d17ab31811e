import CssQuery.Command

namespace CssQuery

def ReadFault.ofError : IO.Error → ReadFault
  | .noFileOrDirectory .. => missing
  | .permissionDenied .. => denied
  | .inappropriateType _ 21 _ => directory
  | .inappropriateType .. => notDirectory
  | .invalidArgument .. => nameTooLong
  | .userError _ => notText
  | error => other (toString error)

def readTree (path : String) : IO (Except ReadFault String) := do
  try
    return .ok (← IO.FS.readFile path)
  catch error =>
    return .error (.ofError error)

def execute (command : Command) : IO UInt32 := do
  let contents ← match command.path? with
    | none => pure (.error .missing)
    | some path => readTree path
  let report := command.run contents
  (← IO.getStdout).putStr report.stdout
  (← IO.getStderr).putStr report.stderr
  return report.code.toUInt32

end CssQuery

def main (args : List String) : IO UInt32 := do
  match CssQuery.Command.ofArgs? args with
  | some command => CssQuery.execute command
  | none =>
      (← IO.getStderr).putStr CssQuery.Command.usage
      return 2
