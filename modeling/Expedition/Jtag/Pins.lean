import Expedition.Jtag.Shift

/-!
# The driver, write by write

Between any two writes of a pin another thread may be given the processor.  Here a function of the
driver is the list of its writes to TCK, TMS, TDI and the `state` field, so that they can be put
between those of others.  The one place where the driver looks at what it shares is `leaveState`,
which goes by the `state` field it finds; so it is an element of the list by itself.

* `JtagOp.run` — what an element does to the world.
* `Drives m L B` — `m` makes the writes of some list in `L`, or panics after those of a list in `B`.
* `setIR_drives`, `shiftData_drives` — the lists of the two scans: how many WAIT answers come is up to
  the port, what is written does not depend on anything else it answers.
-/

namespace Expedition

open Exec

variable {σ : Type}

/-- One write of the driver. -/
inductive JtagWrite where
  | TCK (level : Bool)
  | TMS (level : Bool)
  | TDI (level : Bool)
  | state (c : Char)
  deriving DecidableEq, Repr

inductive JtagOp where
  | write (o : JtagWrite)
  /-- `leaveState`. -/
  | leave
  deriving DecidableEq, Repr

/-! ## The lists -/

def clockOps : Nat → List JtagWrite
  | 0 => []
  | c + 1 => .TCK false :: .TCK true :: clockOps c

def clockTicksOps (c : Nat) : List JtagWrite := .TCK false :: (clockOps c ++ [.TCK false])

/-- TMS and then clocks. -/
def strobeOps (tms : Bool) (c : Nat) : List JtagWrite := .TMS tms :: clockTicksOps c

def resetOps : List JtagWrite := strobeOps true 10 ++ [.TMS false, .state 'r']

def setStateOps (c : Char) : List JtagWrite :=
  strobeOps true (if c = 'd' then 1 else 2) ++ (strobeOps false 2 ++ [.state c])

/-- What `leaveState` does where it finds `c` in the `state` field. -/
def leaveOps (c : Char) : List JtagWrite :=
  if c = 'r' then strobeOps false 1 ++ [.state 'n']
  else if c = 'i' ∨ c = 'd' then strobeOps true 2 ++ (strobeOps false 1 ++ [.state 'n'])
  else []

def shiftLoopOps : Nat → Word → List JtagWrite
  | 0, _ => []
  | n + 1, data => clockTicksOps 1 ++ .TDI (decide (data.toNat % 2 = 1)) :: shiftLoopOps n (data >>> 1)

def shiftBitsOps (data : Word) (n : Nat) : List JtagWrite := .TCK false :: shiftLoopOps n data

/-- Writes as elements of a list that may have a `leaveState` in it. -/
def plain (l : List JtagWrite) : List JtagOp := l.map .write

/-- `setIR` up to its test. -/
def setIRHead (A : Byte) : List JtagOp := plain (setStateOps 'i' ++ shiftBitsOps (A.setWidth 32) 4)

def setIROps (A : Byte) : List JtagOp := setIRHead A ++ [.leave]

/-- A round of the retry loop up to the acknowledge. -/
def ackOps (addr : Byte) (rw : Bool) : List JtagOp :=
  plain (setStateOps 'd' ++
    (shiftBitsOps (if rw then 1 else 0) 1 ++ shiftBitsOps (addr.setWidth 32 >>> 2) 2))

/-- `k` rounds answered WAIT. -/
def waitOps (addr : Byte) (rw : Bool) : Nat → List JtagOp
  | 0 => []
  | k + 1 => ackOps addr rw ++ .leave :: waitOps addr rw k

/-- `shiftData`, after `k` WAIT answers. -/
def shiftDataOps (data : Word) (addr : Byte) (rw : Bool) (k : Nat) : List JtagOp :=
  waitOps addr rw k ++ (ackOps addr rw ++ (plain (shiftBitsOps data 32) ++ [.leave]))

/-- `shiftData` up to the panic on an acknowledge that is neither. -/
def badAckOps (addr : Byte) (rw : Bool) (k : Nat) : List JtagOp :=
  waitOps addr rw k ++ (ackOps addr rw ++ [.leave])

/-! ## What they do -/

/-- The two worlds agree on the pins, the target and the `state` field. -/
structure SamePins (w w' : World σ) : Prop where
  tck : w.tck = w'.tck
  tms : w.tms = w'.tms
  tdi : w.tdi = w'.tdi
  tap : w.tap = w'.tap
  dev : w.dev = w'.dev
  state : w.state = w'.state

theorem SamePins.refl (w : World σ) : SamePins w w := ⟨rfl, rfl, rfl, rfl, rfl, rfl⟩

theorem SamePins.trans {w₁ w₂ w₃ : World σ} (h : SamePins w₁ w₂) (h' : SamePins w₂ w₃) :
    SamePins w₁ w₃ :=
  ⟨h.tck.trans h'.tck, h.tms.trans h'.tms, h.tdi.trans h'.tdi, h.tap.trans h'.tap,
    h.dev.trans h'.dev, h.state.trans h'.state⟩

variable [JtagDevice σ]

def JtagWrite.run : JtagWrite → World σ → World σ
  | TCK level, w => w.setTck level
  | TMS level, w => { w with tms := level }
  | TDI level, w => { w with tdi := level }
  | state c, w => { w with state := c }

def JtagWrite.runs : List JtagWrite → World σ → World σ
  | [], w => w
  | o :: l, w => runs l (o.run w)

def JtagOp.run : JtagOp → World σ → World σ
  | write o, w => o.run w
  | leave, w => JtagWrite.runs (leaveOps w.state) w

def JtagOp.runs : List JtagOp → World σ → World σ
  | [], w => w
  | o :: l, w => runs l (o.run w)

theorem JtagOp.runs_append (l l' : List JtagOp) (w : World σ) :
    runs (l ++ l') w = runs l' (runs l w) := by
  induction l generalizing w with
  | nil => rfl
  | cons o l ih => exact ih _

theorem JtagOp.runs_plain (l : List JtagWrite) (w : World σ) :
    runs (plain l) w = JtagWrite.runs l w := by
  induction l generalizing w with
  | nil => rfl
  | cons o l ih => exact ih _

theorem SamePins.write {w w' : World σ} (h : SamePins w w') (o : JtagWrite) :
    SamePins (o.run w) (o.run w') := by
  obtain ⟨tck, tms, tdi, tap, dev, state, led, console, patience, waits, log⟩ := w
  obtain ⟨tck', tms', tdi', tap', dev', state', led', console', patience', waits', log'⟩ := w'
  obtain ⟨rfl, rfl, rfl, rfl, rfl, rfl⟩ := h
  cases o with
  | TCK level =>
    simp only [JtagWrite.run, World.setTck]
    split
    · exact ⟨rfl, rfl, rfl, rfl, rfl, rfl⟩
    · split <;> exact ⟨rfl, rfl, rfl, rfl, rfl, rfl⟩
  | _ => exact ⟨rfl, rfl, rfl, rfl, rfl, rfl⟩

theorem SamePins.writes {w w' : World σ} (h : SamePins w w') (l : List JtagWrite) :
    SamePins (JtagWrite.runs l w) (JtagWrite.runs l w') := by
  induction l generalizing w w' with
  | nil => exact h
  | cons o l ih => exact ih (h.write o)

theorem SamePins.ops {w w' : World σ} (h : SamePins w w') (l : List JtagOp) :
    SamePins (JtagOp.runs l w) (JtagOp.runs l w') := by
  induction l generalizing w w' with
  | nil => exact h
  | cons o l ih =>
    cases o with
    | write o => exact ih (h.write o)
    | leave =>
      refine ih ?_
      simp only [JtagOp.run, h.state]
      exact h.writes _

/-! ## The driver makes them -/

/-- From `w`, a run that ended so returned after the writes of some list in `L` or panicked after
those of some list in `B`. -/
def Drove {α : Type} (L B : List JtagOp → Prop) (w : World σ) : Except Halt α × World σ → Prop
  | (.ok _, u) => ∃ l, L l ∧ SamePins u (JtagOp.runs l w)
  | (.error (.panic _), u) => ∃ l, B l ∧ SamePins u (JtagOp.runs l w)
  | (.error _, _) => True

/-- `m` returns after the writes of some list in `L` and panics after those of some list in `B`. -/
def Drives {α : Type} (m : Drv σ α) (L B : List JtagOp → Prop) : Prop := ∀ w, Drove L B w (m w)

section

variable {α β : Type} {m : Drv σ α} {k : α → Drv σ β} {L B K C : List JtagOp → Prop}

theorem Drives.bind (hm : Drives m L B) (hk : ∀ a, Drives (k a) K C) :
    Drives (m >>= k) (fun l => ∃ l₁ l₂, L l₁ ∧ K l₂ ∧ l = l₁ ++ l₂)
      (fun l => B l ∨ ∃ l₁ l₂, L l₁ ∧ C l₂ ∧ l = l₁ ++ l₂) := by
  intro w
  have h := hm w
  rw [run_bind]
  cases hmw : m w with
  | mk r u =>
    rw [hmw] at h
    cases r with
    | ok a =>
      obtain ⟨l₁, hl₁, hu⟩ := h
      have h' := hk a u
      simp only
      cases hku : k a u with
      | mk r v =>
        rw [hku] at h'
        cases r with
        | ok b =>
          obtain ⟨l₂, hl₂, hv⟩ := h'
          refine ⟨l₁ ++ l₂, ⟨l₁, l₂, hl₁, hl₂, rfl⟩, ?_⟩
          rw [JtagOp.runs_append]
          exact hv.trans (hu.ops l₂)
        | error e =>
          cases e with
          | panic message =>
            obtain ⟨l₂, hl₂, hv⟩ := h'
            refine ⟨l₁ ++ l₂, .inr ⟨l₁, l₂, hl₁, hl₂, rfl⟩, ?_⟩
            rw [JtagOp.runs_append]
            exact hv.trans (hu.ops l₂)
          | starved => trivial
          | looping => trivial
    | error e =>
      cases e with
      | panic message =>
        obtain ⟨l₁, hl₁, hu⟩ := h
        exact ⟨l₁, .inl hl₁, hu⟩
      | starved => trivial
      | looping => trivial

theorem Drives.mono (hm : Drives m L B) (hL : ∀ l, L l → K l) (hB : ∀ l, B l → C l) :
    Drives m K C := by
  intro w
  have h := hm w
  cases hmw : m w with
  | mk r u =>
    rw [hmw] at h
    cases r with
    | ok a =>
      obtain ⟨l, hl, hu⟩ := h
      exact ⟨l, hL l hl, hu⟩
    | error e =>
      cases e with
      | panic message =>
        obtain ⟨l, hl, hu⟩ := h
        exact ⟨l, hB l hl, hu⟩
      | starved => trivial
      | looping => trivial

/-- `m` makes the writes of `l` and returns. -/
def Makes (m : Drv σ α) (l : List JtagOp) : Prop := Drives m (· = l) fun _ => False

theorem Makes.bind {l l' : List JtagOp} (hm : Makes m l) (hk : ∀ a, Makes (k a) l') :
    Makes (m >>= k) (l ++ l') := by
  refine Drives.mono (Drives.bind hm hk) ?_ ?_
  · rintro _ ⟨_, _, rfl, rfl, rfl⟩
    rfl
  · rintro _ (h | ⟨_, _, _, h, _⟩)
    · exact h
    · exact h

theorem Makes.pure (a : α) : Makes (pure a : Drv σ α) [] := fun w => ⟨[], rfl, .refl w⟩

end

/-- Reading TDO does not change the device. -/
class QuietTdo (σ : Type) [JtagDevice σ] : Prop where
  tdo : ∀ (t : TapState) (s : σ), (JtagDevice.tdo t s).2 = s

theorem TMSHigh_makes : Makes (TMSHigh : Drv σ Unit) (plain [.TMS true]) := fun _ => ⟨_, rfl, .refl _⟩

theorem TMSLow_makes : Makes (TMSLow : Drv σ Unit) (plain [.TMS false]) := fun _ => ⟨_, rfl, .refl _⟩

theorem clockLow_makes : Makes (clockLow : Drv σ Unit) (plain [.TCK false]) := fun _ => ⟨_, rfl, .refl _⟩

theorem clockHigh_makes : Makes (clockHigh : Drv σ Unit) (plain [.TCK true]) := fun _ => ⟨_, rfl, .refl _⟩

theorem setStateField_makes (c : Char) : Makes (setStateField c : Drv σ Unit) (plain [.state c]) :=
  fun _ => ⟨_, rfl, .refl _⟩

theorem logShift_makes : Makes (logShift : Drv σ Unit) [] :=
  fun _ => ⟨_, rfl, ⟨rfl, rfl, rfl, rfl, rfl, rfl⟩⟩

theorem noteWait_makes : Makes (noteWait : Drv σ Unit) [] :=
  fun _ => ⟨_, rfl, ⟨rfl, rfl, rfl, rfl, rfl, rfl⟩⟩

theorem data_makes (data : Word) : Makes (if data &&& 1 = 0 then DataLow else DataHigh : Drv σ Unit)
    (plain [.TDI (decide (data.toNat % 2 = 1))]) := by
  rw [data_run]
  exact fun _ => ⟨_, rfl, .refl _⟩

theorem readTDO_makes [QuietTdo σ] : Makes (readTDO : Drv σ Bool) [] := by
  intro w
  refine ⟨[], rfl, rfl, rfl, rfl, rfl, ?_, rfl⟩
  exact QuietTdo.tdo w.tap w.dev

theorem plain_append (l l' : List JtagWrite) : plain (l ++ l') = plain l ++ plain l' :=
  List.map_append

theorem clockLoop_makes (c : Nat) : Makes (clockLoop c : Drv σ Unit) (plain (clockOps c)) := by
  induction c with
  | zero => exact Makes.pure ()
  | succ c ih => exact clockLow_makes.bind fun _ => clockHigh_makes.bind fun _ => ih

theorem clockTicks_makes (c : Nat) : Makes (clockTicks c : Drv σ Unit) (plain (clockTicksOps c)) := by
  rw [clockTicksOps, ← List.singleton_append, plain_append, plain_append]
  exact clockLow_makes.bind fun _ => (clockLoop_makes c).bind fun _ => clockLow_makes

theorem reset_makes : Makes (reset : Drv σ Unit) (plain resetOps) :=
  TMSHigh_makes.bind fun _ => (clockTicks_makes 10).bind fun _ => TMSLow_makes.bind fun _ =>
    setStateField_makes 'r'

theorem setState_makes {c : Char} (hc : c = 'd' ∨ c = 'i') :
    Makes (setState c : Drv σ Unit) (plain (setStateOps c)) := by
  have h (n : Nat) : Makes (do TMSHigh; clockTicks n; TMSLow; clockTicks 2; setStateField c :
      Drv σ Unit) (plain (strobeOps true n ++ (strobeOps false 2 ++ [.state c]))) := by
    rw [plain_append, plain_append]
    exact TMSHigh_makes.bind fun _ => (clockTicks_makes n).bind fun _ => TMSLow_makes.bind fun _ =>
      (clockTicks_makes 2).bind fun _ => setStateField_makes c
  rcases hc with rfl | rfl
  · exact h 1
  · exact h 2

/-- `leaveState` by itself: what it writes depends on the `state` field it finds. -/
theorem leaveState_makes : Makes (leaveState : Drv σ Unit) [.leave] := by
  intro w
  have hr : Makes (do TMSLow; clockTicks 1; setStateField 'n' : Drv σ Unit)
      (plain (strobeOps false 1 ++ [.state 'n'])) := by
    rw [plain_append]
    exact TMSLow_makes.bind fun _ => (clockTicks_makes 1).bind fun _ => setStateField_makes 'n'
  have hd : Makes (do TMSHigh; clockTicks 2; TMSLow; clockTicks 1; setStateField 'n' : Drv σ Unit)
      (plain (strobeOps true 2 ++ (strobeOps false 1 ++ [.state 'n']))) := by
    rw [plain_append, plain_append]
    exact TMSHigh_makes.bind fun _ => (clockTicks_makes 2).bind fun _ => TMSLow_makes.bind fun _ =>
      (clockTicks_makes 1).bind fun _ => setStateField_makes 'n'
  -- what was shown of a list of writes, said of the one element
  have hrun : ∀ {m : Drv σ Unit} {l : List JtagWrite}, Makes m (plain l) → leaveOps w.state = l →
      Drove (· = [.leave]) (fun _ => False) w (m w) := by
    intro m l hm hl
    have h := hm w
    cases hmw : m w with
    | mk r u =>
      rw [hmw] at h
      cases r with
      | ok a =>
        obtain ⟨_, rfl, hu⟩ := h
        refine ⟨_, rfl, ?_⟩
        rw [JtagOp.runs_plain] at hu
        simpa only [JtagOp.runs, JtagOp.run, hl] using hu
      | error e =>
        cases e with
        | panic message =>
          obtain ⟨_, h, -⟩ := h
          exact h.elim
        | starved => trivial
        | looping => trivial
  rw [leaveState, run_bind_ok (run_read w)]
  by_cases h1 : w.state = 'r'
  · rw [if_pos h1]
    exact hrun hr (by simp [leaveOps, h1])
  · rw [if_neg h1]
    by_cases h2 : w.state = 'i'
    · rw [if_pos h2]
      exact hrun hd (by simp [leaveOps, h2])
    · rw [if_neg h2]
      by_cases h3 : w.state = 'd'
      · rw [if_pos h3]
        exact hrun hd (by simp [leaveOps, h3])
      · rw [if_neg h3]
        exact hrun (l := []) (Makes.pure ()) (by simp [leaveOps, h1, h2, h3])

theorem panic_drives {α : Type} (message : String) :
    Drives (panic message : Drv σ α) (fun _ => False) (· = []) :=
  fun w => ⟨[], rfl, .refl w⟩

section Shifts

variable [QuietTdo σ]

theorem shiftLoop_makes (n : Nat) : ∀ (i : Nat) (data c : Word),
    Makes (shiftLoop n i data c : Drv σ Word) (plain (shiftLoopOps n data)) := by
  induction n with
  | zero => exact fun _ _ c => Makes.pure c
  | succ n ih =>
    intro i data c
    rw [shiftLoopOps, plain_append, ← List.singleton_append, plain_append]
    exact readTDO_makes.bind fun _ => logShift_makes.bind fun _ => (clockTicks_makes 1).bind fun _ =>
      (data_makes data).bind fun _ => ih _ _ _

theorem shiftBits_makes (data : Word) (n : Nat) :
    Makes (shiftBits data n : Drv σ Word) (plain (shiftBitsOps data n)) :=
  clockLow_makes.bind fun _ => shiftLoop_makes n 0 data 0

/-- **The writes of `setIR`.** -/
theorem setIR_drives (A : Byte) :
    Drives (setIR A : Drv σ Unit) (· = setIROps A) (· = setIRHead A) := by
  have hhead : setIRHead A =
      plain (setStateOps 'i') ++ plain (shiftBitsOps (A.setWidth 32) 4) := plain_append _ _
  refine Drives.mono (Drives.bind (setState_makes (.inr rfl)) fun _ =>
    Drives.bind (K := (· = [.leave])) (C := (· = [])) (shiftBits_makes (A.setWidth 32) 4) fun bits => ?_)
    ?_ ?_
  · simp only
    split
    · exact (panic_drives _).mono (fun _ h => h.elim) fun _ h => h
    · exact leaveState_makes.mono (fun _ h => h) fun _ h => h.elim
  · rintro _ ⟨_, _, rfl, ⟨_, _, rfl, rfl, rfl⟩, rfl⟩
    rw [setIROps, hhead, List.append_assoc]
  · rintro _ (h | ⟨_, _, rfl, h | ⟨_, _, rfl, rfl, rfl⟩, rfl⟩)
    · exact h.elim
    · exact h.elim
    · rw [hhead, List.append_nil]

/-- The retry loop: some rounds answered WAIT, and then one that is not. -/
theorem ackLoop_drives (addr : Byte) (rw : Bool) (fuel : Nat) :
    Drives (ackLoop addr rw fuel : Drv σ Unit)
      (fun l => ∃ k, l = waitOps addr rw k ++ ackOps addr rw) (fun l => ∃ k, l = badAckOps addr rw k) := by
  have hack : ackOps addr rw = plain (setStateOps 'd') ++
      (plain (shiftBitsOps (if rw then 1 else 0) 1) ++
        plain (shiftBitsOps (addr.setWidth 32 >>> 2) 2)) := by
    rw [← plain_append, ← plain_append]
    rfl
  induction fuel with
  | zero => exact fun _ => trivial
  | succ fuel ih =>
    -- what follows the acknowledge
    let K : List JtagOp → Prop := fun l =>
      l = [] ∨ ∃ k, l = .leave :: (waitOps addr rw k ++ ackOps addr rw)
    let C : List JtagOp → Prop := fun l => l = [.leave] ∨ ∃ k, l = .leave :: badAckOps addr rw k
    refine Drives.mono (Drives.bind (setState_makes (.inl rfl)) fun _ =>
      Drives.bind (shiftBits_makes _ 1) fun ok0 =>
      Drives.bind (K := K) (C := C) (shiftBits_makes _ 2) fun ok1 => ?_) ?_ ?_
    · simp only
      split
      · refine Drives.mono (Drives.bind noteWait_makes fun _ => Drives.bind leaveState_makes fun _ => ih)
          ?_ ?_
        · rintro _ ⟨_, _, rfl, ⟨_, _, rfl, ⟨k, rfl⟩, rfl⟩, rfl⟩
          exact .inr ⟨k, rfl⟩
        · rintro _ (h | ⟨_, _, rfl, h | ⟨_, _, rfl, ⟨k, rfl⟩, rfl⟩, rfl⟩)
          · exact h.elim
          · exact h.elim
          · exact .inr ⟨k, rfl⟩
      · split
        · exact Drives.mono (Makes.pure ()) (fun _ h => .inl h) fun _ h => h.elim
        · refine Drives.mono (Drives.bind leaveState_makes fun _ => panic_drives _) ?_ ?_
          · rintro _ ⟨_, _, _, h, _⟩
            exact h.elim
          · rintro _ (h | ⟨_, _, rfl, rfl, rfl⟩)
            · exact h.elim
            · exact .inl rfl
    · rintro _ ⟨_, _, rfl, ⟨_, _, rfl, ⟨_, _, rfl, h | ⟨k, h⟩, rfl⟩, rfl⟩, rfl⟩
      · refine ⟨0, ?_⟩
        rw [h, List.append_nil, hack]
        rfl
      · refine ⟨k + 1, ?_⟩
        rw [h, waitOps, hack]
        simp only [List.append_assoc, List.cons_append]
    · rintro _ (h | ⟨_, _, rfl, h | ⟨_, _, rfl, h | ⟨_, _, rfl, h | ⟨k, h⟩, rfl⟩, rfl⟩, rfl⟩)
      · exact h.elim
      · exact h.elim
      · exact h.elim
      · refine ⟨0, ?_⟩
        rw [h, badAckOps, hack]
        simp only [waitOps, List.append_assoc, List.nil_append]
      · refine ⟨k + 1, ?_⟩
        rw [h, badAckOps, badAckOps, waitOps, hack]
        simp only [List.append_assoc, List.cons_append]

/-- **The writes of `shiftData`.** -/
theorem shiftData_drives (data : Word) (addr : Byte) (rw : Bool) :
    Drives (shiftData data addr rw : Drv σ Word) (fun l => ∃ k, l = shiftDataOps data addr rw k)
      (fun l => ∃ k, l = badAckOps addr rw k) := by
  intro w
  have h : Drives (ackLoop addr rw w.patience >>= fun _ => shiftBits data 32 >>= fun retdata =>
      leaveState >>= fun _ => pure retdata : Drv σ Word)
      (fun l => ∃ k, l = shiftDataOps data addr rw k) (fun l => ∃ k, l = badAckOps addr rw k) := by
    refine Drives.mono (Drives.bind (ackLoop_drives addr rw w.patience) fun _ =>
      Makes.bind (shiftBits_makes data 32) fun retdata => leaveState_makes.bind fun _ =>
        Makes.pure retdata) ?_ ?_
    · rintro _ ⟨_, _, ⟨k, rfl⟩, rfl, rfl⟩
      exact ⟨k, by simp only [shiftDataOps, List.append_assoc, List.append_nil]⟩
    · rintro _ (h | ⟨_, _, _, h, _⟩)
      · exact h
      · exact h.elim
  rw [shiftData, run_bind_ok (run_read w)]
  exact h w

end Shifts

end Expedition
