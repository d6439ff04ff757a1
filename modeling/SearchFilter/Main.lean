import SearchFilter.CommandLine

/-!
# The command

Reads the arguments and, where they hold no query, the standard input; writes what the command line
answers.
-/

namespace SearchFilter

/-- All bytes of a stream, behind those that were read before. -/
partial def readBytes (stream : IO.FS.Stream) (bytes : ByteArray) : IO ByteArray := do
  let more ← stream.read 65536
  if more.isEmpty then return bytes else readBytes stream (bytes ++ more)

end SearchFilter

open SearchFilter in
/-- Runs the command. -/
def main (args : List String) : IO UInt32 := do
  let wanted := (CommandLine.Invocation.ofArgs? args).any (·.wantsInput)
  let input ← if wanted then readBytes (← IO.getStdin) ByteArray.empty else pure ByteArray.empty
  let outcome := CommandLine.run args input
  IO.print outcome.out
  IO.eprint outcome.err
  return UInt32.ofNat outcome.status
