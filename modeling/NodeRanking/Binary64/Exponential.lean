import NodeRanking.Binary64.Bits

/-!
# The exponential function

The library takes the exponential as a parameter, so that its theory needs no more than what is said
of that parameter. `machineExp` is the value it has when the program runs.
-/

namespace NodeRanking

/-- The exponential of the machine's mathematical library. -/
def Binary64.machineExp (x : Binary64) : Binary64 :=
  .ofBits (Float.exp (Float.ofBits x.toBits)).toBits

end NodeRanking
