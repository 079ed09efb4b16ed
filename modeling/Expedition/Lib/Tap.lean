import Mathlib.Logic.Function.Iterate

/-!
# The IEEE 1149.1 test access port controller

The sixteen-state controller that every JTAG target carries, stepped by the TMS level sampled at
each rising edge of TCK.  `TapState.next tms` is the state diagram of the standard.

* `TapState.reset_of_five_le` — five or more edges with TMS high reach Test-Logic-Reset from
  every state.
-/

/-- The controller's states. -/
inductive TapState where
  | testLogicReset
  | runTestIdle
  | selectDR
  | captureDR
  | shiftDR
  | exit1DR
  | pauseDR
  | exit2DR
  | updateDR
  | selectIR
  | captureIR
  | shiftIR
  | exit1IR
  | pauseIR
  | exit2IR
  | updateIR
  deriving DecidableEq, Repr

namespace TapState

/-- The state after a rising edge of TCK at which TMS has the given level. -/
def next (tms : Bool) : TapState → TapState
  | testLogicReset => if tms then testLogicReset else runTestIdle
  | runTestIdle => if tms then selectDR else runTestIdle
  | selectDR => if tms then selectIR else captureDR
  | captureDR => if tms then exit1DR else shiftDR
  | shiftDR => if tms then exit1DR else shiftDR
  | exit1DR => if tms then updateDR else pauseDR
  | pauseDR => if tms then exit2DR else pauseDR
  | exit2DR => if tms then updateDR else shiftDR
  | updateDR => if tms then selectDR else runTestIdle
  | selectIR => if tms then testLogicReset else captureIR
  | captureIR => if tms then exit1IR else shiftIR
  | shiftIR => if tms then exit1IR else shiftIR
  | exit1IR => if tms then updateIR else pauseIR
  | pauseIR => if tms then exit2IR else pauseIR
  | exit2IR => if tms then updateIR else shiftIR
  | updateIR => if tms then selectDR else runTestIdle

theorem reset_of_five (t : TapState) : (next true)^[5] t = testLogicReset := by
  cases t <;> rfl

theorem iterate_reset (n : Nat) : (next true)^[n] testLogicReset = testLogicReset :=
  Function.iterate_fixed rfl n

/-- **Synchronisation.**  Five or more edges with TMS high reset the controller, whatever state
it was in. -/
theorem reset_of_five_le {n : Nat} (h : 5 ≤ n) (t : TapState) :
    (next true)^[n] t = testLogicReset := by
  obtain ⟨k, rfl⟩ := Nat.exists_eq_add_of_le h
  rw [Nat.add_comm, Function.iterate_add_apply, reset_of_five, iterate_reset]

end TapState
