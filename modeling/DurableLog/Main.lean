import DurableLog.CommandLine

/-!
# The inspector

Reads the log file of a data directory and tells what it holds. Lines go to the standard output;
a fault goes to the standard error and ends the program with code 1.
-/

namespace DurableLog

/-- What stands under a path, or nothing. -/
def readContent (path : String) : IO (Option Content) := do
  try
    return some (.regular (← IO.FS.readBinFile path))
  catch
    | .noFileOrDirectory .. => return none
    | .inappropriateType .. => return some .directory
    | other => throw other

/-- Does what the command line asks for. -/
def inspect (invocation : Invocation) : IO UInt32 := do
  let path := Disk.joinPath invocation.dataDir walFileName
  let disk := Disk.ofLog invocation.dataDir (← readContent path)
  match invocation.inspection.run disk with
  | .ok lines =>
    lines.forM fun line => IO.println line
    return 0
  | .error fault =>
    IO.eprintln fault.message
    return 1

end DurableLog

def main (arguments : List String) : IO UInt32 := do
  match DurableLog.Invocation.ofArguments? arguments with
  | some invocation => DurableLog.inspect invocation
  | none =>
    IO.eprintln DurableLog.Invocation.usage
    return 2
