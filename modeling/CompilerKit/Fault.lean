/-!
# Faults

The ways in which a computation of this library stops without a result. Each part of the library
has its own causes and turns them into faults; a fault with a text carries it finished.
-/

namespace CompilerKit

inductive Fault where
  | failure (text : String)
  /-- A failure that the running program was stopped for on purpose. -/
  | trapped (text : String)
  | machine (text : String)
  /-- A look-up of a key that is not there; the key as it is shown. -/
  | missingKey (shown : String)
  | exit (code : Int)
  | wrongKind
  | wrongValue
  | outOfRange
  | missingPart
  | unboundName
  /-- A local name read before it was bound. -/
  | unsetName
  /-- A condition that was taken for granted does not hold. -/
  | broken
  | divisionByZero
  | overflow
  | unencodable
  | endOfInput
  | missingFile
  | outOfFuel
  deriving Inhabited

end CompilerKit
