import Expedition.Lib.Exec
import Expedition.Lib.Tap

/-!
# The JTAG pins, the driver object and the target behind them

A `World σ` is what a call of the `JTAG` class acts on: the four JTAG pins of `pinout.h`, the
fields of the driver object, and the target, which is a TAP controller in front of a device of
any type `σ` (`JtagDevice`).  The controller samples TMS at each rising edge of TCK; the device
is told of every edge and is asked for TDO.

Three fields are not in the source.  `shiftLog` records the controller's state and the driver's
`state` at every clock of `shiftBits`; `waits` counts the WAIT acknowledges seen; `patience` is
the number of scans one `shiftData` may make before the model gives up, because the source's
retry loop has no bound of its own (running out is the outcome `Halt.starved`, never a result).

`wait_us(delay)` only takes time and is left out, and so is the `delay` field it reads.
-/

namespace Expedition

/-- `unsigned int`. -/
abbrev Word := BitVec 32

/-- `unsigned char`; `char` is unsigned on this target. -/
abbrev Byte := BitVec 8

/-- A device behind a TAP controller.  Every action is given the controller's state at the time:
before the edge for a rising edge, after it for a falling one. -/
class JtagDevice (σ : Type) where
  /-- The TDO level; reading it may consume an element of a recorded stream. -/
  tdo : TapState → σ → Bool × σ
  /-- A rising edge of TCK with the given TDI level. -/
  rise : TapState → Bool → σ → σ
  /-- A falling edge of TCK. -/
  fall : TapState → σ → σ

structure World (σ : Type) where
  tck : Bool
  tms : Bool
  tdi : Bool
  tap : TapState
  dev : σ
  /-- `JTAG::state`: n=null, r=reset, d=data, i=instruction. -/
  state : Char
  waitIndicator : Bool
  /-- The terminal, oldest text first. -/
  console : List String
  patience : Nat
  waits : Nat
  shiftLog : List (TapState × Char)

/-- How a driver call can end other than by returning. -/
inductive Halt where
  /-- `panic` with its message. -/
  | panic (message : String)
  /-- The model's bound on WAIT retries is used up. -/
  | starved
  /-- The model's bound on the rounds of a file loop is used up. -/
  | looping
  deriving DecidableEq, Repr

/-- A call of the `JTAG` class. -/
abbrev Drv (σ α : Type) := Exec (World σ) Halt α

namespace World

variable {σ : Type} [JtagDevice σ]

/-- A rising edge of TCK: the device acts in the present state, then the controller moves. -/
def riseTck (w : World σ) : World σ :=
  { w with tck := true, dev := JtagDevice.rise w.tap w.tdi w.dev, tap := w.tap.next w.tms }

def fallTck (w : World σ) : World σ :=
  { w with tck := false, dev := JtagDevice.fall w.tap w.dev }

/-- Drive TCK: only a change of level is an edge. -/
def setTck (level : Bool) (w : World σ) : World σ :=
  if w.tck = level then w else if level then w.riseTck else w.fallTck

/-- One full clock pulse with TCK low before and after. -/
def pulse (w : World σ) : World σ := w.riseTck.fallTck

@[simp] theorem pulse_tck (w : World σ) : w.pulse.tck = false := rfl
@[simp] theorem pulse_tms (w : World σ) : w.pulse.tms = w.tms := rfl
@[simp] theorem pulse_tdi (w : World σ) : w.pulse.tdi = w.tdi := rfl
@[simp] theorem pulse_tap (w : World σ) : w.pulse.tap = w.tap.next w.tms := rfl
@[simp] theorem pulse_state (w : World σ) : w.pulse.state = w.state := rfl
@[simp] theorem pulse_patience (w : World σ) : w.pulse.patience = w.patience := rfl
@[simp] theorem pulse_waits (w : World σ) : w.pulse.waits = w.waits := rfl
@[simp] theorem pulse_shiftLog (w : World σ) : w.pulse.shiftLog = w.shiftLog := rfl
@[simp] theorem pulse_dev (w : World σ) :
    w.pulse.dev = JtagDevice.fall (w.tap.next w.tms) (JtagDevice.rise w.tap w.tdi w.dev) := rfl

/-- `n` clock pulses. -/
def pulses : Nat → World σ → World σ
  | 0, w => w
  | n + 1, w => pulses n w.pulse

theorem setTck_low {w : World σ} (h : w.tck = false) : w.setTck false = w := by
  simp [setTck, h]

theorem setTck_high {w : World σ} (h : w.tck = false) : w.setTck true = w.riseTck := by
  simp [setTck, h]

theorem setTck_riseTck (w : World σ) : w.riseTck.setTck false = w.pulse := by
  simp [setTck, riseTck, pulse]

theorem pulses_tck {w : World σ} (n : Nat) (h : w.tck = false) : (pulses n w).tck = false := by
  induction n generalizing w with
  | zero => exact h
  | succ n ih => exact ih rfl

@[simp] theorem pulses_tms (n : Nat) (w : World σ) : (pulses n w).tms = w.tms := by
  induction n generalizing w with
  | zero => rfl
  | succ n ih => rw [pulses, ih, pulse_tms]

@[simp] theorem pulses_tap (n : Nat) (w : World σ) :
    (pulses n w).tap = (TapState.next w.tms)^[n] w.tap := by
  induction n generalizing w with
  | zero => rfl
  | succ n ih => rw [pulses, ih, pulse_tms, pulse_tap, Function.iterate_succ_apply]

@[simp] theorem pulses_state (n : Nat) (w : World σ) : (pulses n w).state = w.state := by
  induction n generalizing w with
  | zero => rfl
  | succ n ih => rw [pulses, ih, pulse_state]

@[simp] theorem pulses_patience (n : Nat) (w : World σ) : (pulses n w).patience = w.patience := by
  induction n generalizing w with
  | zero => rfl
  | succ n ih => rw [pulses, ih, pulse_patience]

@[simp] theorem pulses_waits (n : Nat) (w : World σ) : (pulses n w).waits = w.waits := by
  induction n generalizing w with
  | zero => rfl
  | succ n ih => rw [pulses, ih, pulse_waits]

@[simp] theorem pulses_shiftLog (n : Nat) (w : World σ) : (pulses n w).shiftLog = w.shiftLog := by
  induction n generalizing w with
  | zero => rfl
  | succ n ih => rw [pulses, ih, pulse_shiftLog]

/-- Set TMS and clock `n` times. -/
def strobe (tms : Bool) (n : Nat) (w : World σ) : World σ := pulses n { w with tms := tms }

theorem strobe_tck {w : World σ} (b : Bool) (n : Nat) (h : w.tck = false) :
    (strobe b n w).tck = false :=
  pulses_tck n h

@[simp] theorem strobe_tms (b : Bool) (n : Nat) (w : World σ) : (strobe b n w).tms = b := by
  simp [strobe]

@[simp] theorem strobe_tap (b : Bool) (n : Nat) (w : World σ) :
    (strobe b n w).tap = (TapState.next b)^[n] w.tap := by
  simp [strobe]

@[simp] theorem strobe_state (b : Bool) (n : Nat) (w : World σ) :
    (strobe b n w).state = w.state := by
  simp [strobe]

@[simp] theorem strobe_patience (b : Bool) (n : Nat) (w : World σ) :
    (strobe b n w).patience = w.patience := by
  simp [strobe]

@[simp] theorem strobe_waits (b : Bool) (n : Nat) (w : World σ) :
    (strobe b n w).waits = w.waits := by
  simp [strobe]

@[simp] theorem strobe_shiftLog (b : Bool) (n : Nat) (w : World σ) :
    (strobe b n w).shiftLog = w.shiftLog := by
  simp [strobe]

end World

end Expedition
