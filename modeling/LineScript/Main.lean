import LineScript.CommandLine
import Std.Time.DateTime.Timestamp

/-!
# The program

Reads the arguments, the clock and, if asked to, a file; writes what `Invocation.execute` answers,
and the part of the log that was asked for to standard error.
-/

namespace LineScript.Main

/-- Bound on nested evaluations and on the iterations of a loop. -/
def bound : Nat := Nat.pow 2 62

/-- Exit code for arguments that cannot be understood. -/
def usageError : UInt32 := 2

/-- How to call the program. -/
def usage : String :=
  "Usage: linescript [-f] [-s tokens|ast|eval] [-v]... [--] PROGRAM-OR-FILE"

/-- The present instant. -/
def readClock : IO Instant := do
  let now ← Std.Time.Timestamp.now
  pure ⟨now.toSecondsSinceUnixEpoch.val, 0⟩

/-- The text of a file, if it can be read and is text. -/
def readScript (path : String) : IO (Option String) := do
  try
    let bytes ← IO.FS.readBinFile ⟨path⟩
    pure (String.fromUTF8? bytes)
  catch _ => pure none

/-- Whether an entry of level `entry` is wanted when entries from level `least` on are. -/
def wanted : Level → Level → Bool
  | .info, entry => entry == .info
  | .debug, entry => entry != .trace
  | .trace, _ => true

/-- Carries out an invocation. -/
def perform (i : Invocation) : IO UInt32 := do
  let script ← if i.file then readScript i.contents else pure (some i.contents)
  match i.execute bound (← readClock) script with
  | none => pure 1
  | some t =>
    for event in t.log.inOrder do
      if wanted i.level event.level then
        IO.eprintln ("[" ++ event.level.name ++ "] " ++ event.message)
    IO.print t.stdout
    IO.eprint t.stderr
    pure (UInt32.ofNat t.code)

end LineScript.Main

/-- Entry point. -/
def main (args : List String) : IO UInt32 :=
  match LineScript.Invocation.ofArgs? args with
  | some i => LineScript.Main.perform i
  | none => do
    IO.eprintln LineScript.Main.usage
    pure LineScript.Main.usageError
