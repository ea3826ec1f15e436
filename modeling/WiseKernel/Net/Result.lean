import Mathlib.Tactic.Common

/-!
# Results, reasons and abnormal ends

`result<bool, reason>` as the network layer returns it, and the two ways a
call can end without returning: an exception that leaves it, and an access
that leaves the buffer, for which the language gives no behaviour.
-/

namespace WiseKernel.Net

/-- The reasons the modelled functions return. -/
inductive Reason
  | success
  | failZeroSizeData
  | failBitsMessageNotRegistered
  | failBitsPackError
  | failBitsUnpackError
  | failInsufficientUnpack
  | failBitsMaxPacketSize
  | failInvalidMessageSequence
  | failNullHashFunction
  | failIncorrectChecksum
  deriving DecidableEq, Repr

structure Result where
  code : Bool
  value : Reason
  deriving DecidableEq, Repr

namespace Result

def ok : Result := ⟨true, .success⟩

def fail (r : Reason) : Result := ⟨false, r⟩

@[simp] theorem ok_code : ok.code = true := rfl

@[simp] theorem fail_code (r : Reason) : (fail r).code = false := rfl

@[simp] theorem fail_ne_ok (r : Reason) : fail r ≠ ok := by simp [fail, ok]

end Result

/-- The ends of a call that are not a return. -/
inductive Abort
  /-- an exception leaves the call -/
  | thrown
  /-- an access outside the buffer, or a library call outside its contract -/
  | undefined
  deriving DecidableEq, Repr

end WiseKernel.Net
