/-!
# Options

What a user can set: whether function types are checked strictly, whether more is logged, and which
diagnostic codes are left alone.
-/
namespace Misfit

/-- The settings of an explanation run. -/
structure Options where
  /-- An explicit `false` makes the comparison of returned values one-way. -/
  strictFunctionTypes : Option Bool := none
  verbose : Bool := false
  /-- By default, the codes that never describe a conflict of types: unused declarations, unresolved
  names, and use before declaration. -/
  ignoredCodes : List Nat := [6133, 2304, 2448, 2454]
  deriving DecidableEq, Repr

namespace Options

def ignores (o : Options) (code : Nat) : Bool := code ∈ o.ignoredCodes

/-- Returned values are compared in both directions. -/
def returnsBothWays (o : Options) : Bool := o.strictFunctionTypes ≠ some false

end Options

end Misfit
