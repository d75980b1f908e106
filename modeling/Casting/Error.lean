import Mathlib.Data.Int.Notation

/-!
# Error codes

The part of the enumeration in `lc_error.h` that the modelled functions return, with the values
it gives its members: some callers use a returned code as a number.
-/

namespace Casting

inductive ReturnCode
  | success
  | fail
  | errInval
  | errNoMem
  | errUnsupported
  | errFull
  | errEmpty
  | errClosed
  | errOverflow
  | errTaskState
  deriving DecidableEq, Repr

def ReturnCode.toInt : ReturnCode → ℤ
  | .success => 0
  | .fail => -1
  | .errInval => -2
  | .errNoMem => -3
  | .errUnsupported => -5
  | .errFull => -7
  | .errEmpty => -8
  | .errClosed => -11
  | .errOverflow => -17
  | .errTaskState => -20

end Casting
