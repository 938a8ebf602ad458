import NodeRanking.Binary64.Exponential
import NodeRanking.Command.Attempt
import NodeRanking.Command.Run

/-!
# The program

Reads the files that the arguments name, runs the command on them and writes what it says.
-/

/-- The contents of a file, if it can be read. -/
def NodeRanking.Command.contents? (path : String) : IO (Option ByteArray) := do
  try
    return some (← IO.FS.readBinFile path)
  catch _ =>
    return none

def main (arguments : List String) : IO UInt32 := do
  let paths := (NodeRanking.Command.read arguments).paths
  let contents ← paths.mapM NodeRanking.Command.contents?
  let bytes ← IO.getRandomBytes 16
  let ending :=
    NodeRanking.Command.run
      { files := fun path => ((paths.zip contents).lookup path).join
        exp := NodeRanking.Binary64.machineExp
        attempt := NodeRanking.Command.attemptName (bytes.toList.map (·.toNat)) }
      arguments
  (← IO.getStdout).putStr ending.output
  (← IO.getStderr).putStr ending.complaint
  return UInt32.ofNat ending.code
