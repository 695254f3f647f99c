import DurableLog.Inspection

/-!
# The inspector's command line

`--data-dir DIR` (or `-d DIR`) names the data directory, and one command tells what to show:
`verify`, `state`, or `dump` with `--from N` and `--to N`. A long option and its value may also be
one argument, `--from=N`. Indices are 64-bit numbers in decimal.
-/

namespace DurableLog

/-- What the inspector is asked to do. -/
structure Invocation where
  dataDir : String
  inspection : Inspection
  deriving DecidableEq

namespace Invocation

/-- A long option and its value in one argument, taken apart. -/
def separate (argument : String) : List String :=
  let chars := argument.toList
  match chars.take 2, chars.dropWhile (· ≠ '=') with
  | ['-', '-'], _ :: value => [String.ofList (chars.takeWhile (· ≠ '=')), String.ofList value]
  | _, _ => [argument]

/-- A 64-bit number in decimal, a plus sign in front allowed. -/
def index? (text : String) : Option Nat :=
  let digits : List Char := match text.toList with
    | '+' :: rest => rest
    | chars => chars
  let n := digits.foldl (fun n c => 10 * n + (c.toNat - '0'.toNat)) 0
  if digits ≠ [] ∧ digits.all Char.isDigit ∧ n < UInt64.size then some n else none

/-- The arguments of `dump`. -/
def dump? (first : Nat) (last : Option Nat) : List String → Option Inspection
  | [] => some (.dump first last)
  | "--from" :: n :: rest => (index? n).bind fun n => dump? n last rest
  | "--to" :: n :: rest => (index? n).bind fun n => dump? first (some n) rest
  | _ => none

/-- The command and its arguments. -/
def inspection? : List String → Option Inspection
  | ["verify"] => some .verify
  | ["state"] => some .state
  | "dump" :: rest => dump? 1 none rest
  | _ => none

/-- The data directory, the command and its arguments. -/
def ofSeparated? : List String → Option Invocation
  | "--data-dir" :: dir :: rest => (inspection? rest).map (⟨dir, ·⟩)
  | "-d" :: dir :: rest => (inspection? rest).map (⟨dir, ·⟩)
  | _ => none

/-- All arguments. -/
def ofArguments? (arguments : List String) : Option Invocation :=
  ofSeparated? (arguments.flatMap separate)

/-- How the inspector is called. -/
def usage : String := "usage: --data-dir DIR (verify | state | dump [--from N] [--to N])"

end Invocation

/-- A directory with this log file in it, if there is one. -/
def Disk.ofLog (dataDir : String) (log : Option Content) : Disk :=
  let d : Disk := { Disk.blank dataDir with place := .aDirectory }
  match log with
  | some c => d.addLog c
  | none => d

end DurableLog
