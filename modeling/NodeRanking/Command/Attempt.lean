import NodeRanking.Text.Hexadecimal

/-!
# Names of attempts

An attempt is named by 16 random bytes in hexadecimal digits, grouped by dashes. Six of the bits say
that the name is a random one.
-/

namespace NodeRanking

namespace Command

/-- The bytes with the bits for the version and the variant of the name set. -/
def stamped (bytes : List Nat) : List Nat :=
  bytes.zipIdx.map fun (n, i) =>
    if i = 6 then 0x40 + n % 0x10 else if i = 8 then 0x80 + n % 0x40 else n

/-- The name made of random bytes. -/
def attemptName (bytes : List Nat) : String :=
  let digits (first count : Nat) : List Char :=
    (((stamped bytes).drop first).take count).flatMap Text.byteDigits
  "-".intercalate
    ([digits 0 4, digits 4 2, digits 6 2, digits 8 2, digits 10 6].map String.ofList)

end Command

end NodeRanking
