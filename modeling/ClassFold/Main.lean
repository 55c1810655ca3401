import ClassFold.Command.Run

/-!
# The program
-/

set_option autoImplicit false

namespace ClassFold.Command

def causeOf : IO.Error → Cause
  | .noFileOrDirectory .. => .missing
  | .inappropriateType _ 20 _ => .notDirectory
  | .inappropriateType _ 21 _ => .isDirectory
  | e => .other (toString e)

/-- The files of the system that the program runs on. -/
def systemFiles : Files IO where
  read path := do
    try return .ok (← IO.FS.readBinFile (String.ofList path))
    catch e => return .error (causeOf e)
  write path bytes := do
    try return .ok (← IO.FS.writeBinFile (String.ofList path) bytes)
    catch e => return .error (causeOf e)

def Report.print (report : Report) : IO Unit := do
  IO.print report.stdout
  if report.warnedEmpty then
    IO.eprintln "the list of utilities is empty, nothing will be changed"
  if let some failure := report.failure? then
    IO.eprintln failure.line
    if let some line := failure.causeLine? then IO.eprintln line

end ClassFold.Command

def main (args : List String) : IO UInt32 := do
  let report ← ClassFold.Command.run ClassFold.Command.systemFiles (args.map String.toList)
  report.print
  return UInt32.ofNat report.exit
