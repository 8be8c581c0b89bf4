import Bies.Command

/-!
# The program

The command on the files of the machine it runs on.
-/

namespace Bies

/-- The error that the system reports. -/
def FileError.ofSystem : IO.Error → FileError
  | .noFileOrDirectory .. => .notFound
  | .resourceVanished .. => .notFound
  | .inappropriateType .. => .notDirectory
  | e => .other (toString e)

/-- The files of the machine. -/
def disk : FileAccess IO where
  read path := do
    match ← (IO.FS.readFile path).toBaseIO with
    | .ok text => return .text text
    | .error e =>
      match FileError.ofSystem e with
      | .notFound | .notDirectory => return .missing
      | cause => return .unreadable cause
  write path text := do
    match ← (IO.FS.writeFile path text).toBaseIO with
    | .ok _ => return .ok ()
    | .error e => return .error (.ofSystem e)

end Bies

def main (args : List String) : IO UInt32 := do
  let report ← Bies.Command.run Bies.disk args
  IO.print report.stdout
  IO.eprint report.stderr
  return report.exit
