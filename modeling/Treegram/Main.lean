import Treegram.Console

/-!
# Command line

`request` and `events` run the two programs. The peer is played from standard input: the bytes
read there are its answer, behind which it closes.
-/

def main (args : List String) : IO UInt32 := do
  let input ← (← IO.getStdin).readBinToEnd
  let outcome := Treegram.Console.run args input.data.toList
  IO.print outcome.output
  IO.eprint outcome.errors
  return outcome.exit.toUInt32
