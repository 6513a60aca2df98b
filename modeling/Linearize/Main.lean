import Linearize.Command

/-!
# Linearize.Main

Runs the command on the standard input.
-/

/-- Reads to the end of the input. -/
partial def readAllBytes (stream : IO.FS.Stream) (acc : ByteArray) : IO ByteArray := do
  let chunk ← stream.read 65536
  if chunk.isEmpty then return acc else readAllBytes stream (acc ++ chunk)

def main (args : List String) : IO UInt32 := do
  let outcome ←
    match Linearize.Command.settings args with
    | .error outcome => pure outcome
    | .ok s =>
      let input ← readAllBytes (← IO.getStdin) ByteArray.empty
      pure (Linearize.Command.compiled s input.data.toList)
  IO.print outcome.stdout
  return outcome.exitCode
