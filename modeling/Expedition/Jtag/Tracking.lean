import Expedition.Jtag.Driver

/-!
# The driver's `state` follows the TAP controller

The driver steers a sixteen-state controller by clock counts and remembers where it left it in
one character.  Here the controller stands in front of a device of any kind, so every stream of
TDO values occurs.

* `clockTicks_run`, `setState_d_run`, `leaveState_d_run` and their siblings — what each move does
  to the pins, as an equation.
* `At t c` — what is true at the driver's resting points: TCK and TMS low, the controller in `t`,
  the `state` field `c`, and every `shiftBits` clock so far made in step.
* `Call.keeps` — every call goes from Run-Test/Idle to Run-Test/Idle, also through WAIT retries.
* `session_in_step` — the whole session, from the constructor on.
-/

namespace Expedition

open Exec

variable {σ : Type}

/-! ## Resting points -/

/-- A `shiftBits` clock in step: Shift-IR exactly under `'i'`, Shift-DR exactly under `'d'`. -/
def InStep (e : TapState × Char) : Prop :=
  (e.1 = .shiftIR ↔ e.2 = 'i') ∧ (e.1 = .shiftDR ↔ e.2 = 'd')

/-- The driver rests in controller state `t` with `state` field `c`; `p` is the retry bound and
at least `n` WAIT acknowledges have been seen. -/
structure At (t : TapState) (c : Char) (p n : Nat) (w : World σ) : Prop where
  tck : w.tck = false
  tms : w.tms = false
  tap : w.tap = t
  state : w.state = c
  log : ∀ e ∈ w.shiftLog, InStep e
  patience : w.patience = p
  waits : n ≤ w.waits

/-- What is true where a call stops short: the clocks were in step, and running out of retries
means that as many WAIT acknowledges were seen. -/
def Stopped (p n : Nat) (e : Halt) (w : World σ) : Prop :=
  (∀ e ∈ w.shiftLog, InStep e) ∧ (e = .starved → n + p ≤ w.waits)

section Fields

variable {p n : Nat} {t : TapState} {c : Char} {E : Halt → World σ → Prop}

theorem logShift_at (h : InStep (t, c)) : Keeps (At (σ := σ) t c p n) E logShift := by
  refine ⟨fun w hw => ?_⟩
  refine ⟨hw.tck, hw.tms, hw.tap, hw.state, ?_, hw.patience, hw.waits⟩
  intro e he
  rcases List.mem_append.mp he with he | he
  · exact hw.log e he
  · rw [List.mem_singleton.mp he, hw.tap, hw.state]
    exact h

theorem data_at (b : Bool) :
    Keeps (At (σ := σ) t c p n) E (update fun w : World σ => { w with tdi := b }) :=
  ⟨fun _ hw => ⟨hw.tck, hw.tms, hw.tap, hw.state, hw.log, hw.patience, hw.waits⟩⟩

theorem panic_stopped {α : Type} {Q : α → World σ → Prop} (message : String) :
    Triple (At t c p n) (panic message : Drv σ α) Q (Stopped p n) :=
  Triple.fail fun _ hw => ⟨hw.log, fun h => by cases h⟩

theorem noteWait_at :
    Triple (At (σ := σ) t c p n) noteWait (fun _ => At t c p (n + 1)) E :=
  ⟨fun _ hw => ⟨hw.tck, hw.tms, hw.tap, hw.state, hw.log, hw.patience, Nat.succ_le_succ hw.waits⟩⟩

theorem At.mono {t : TapState} {c : Char} {m : Nat} {w : World σ} (h : At t c p n w)
    (hm : m ≤ n) : At t c p m w :=
  ⟨h.tck, h.tms, h.tap, h.state, h.log, h.patience, Nat.le_trans hm h.waits⟩

/-- Between two calls. -/
abbrev Idle (p n : Nat) : World σ → Prop := At .runTestIdle 'n' p n

theorem expect_keeps (name : String) (rd want : Word) :
    Keeps (Idle (σ := σ) p n) (Stopped p n) (expect name rd want) := by
  unfold expect
  exact Triple.ite (fun _ => panic_stopped _) fun _ => Keeps.pure _

theorem takeWord_keeps (check print : Bool) (k : Nat) (word : Word) (acc : ReadAcc) :
    Keeps (Idle (σ := σ) p n) (Stopped p n) (takeWord check print k word acc) := by
  unfold takeWord
  refine Keeps.bind (Keeps.when (Keeps.update fun w hw => ?_)) fun _ => Keeps.pure _
  exact ⟨hw.tck, hw.tms, hw.tap, hw.state, hw.log, hw.patience, hw.waits⟩

end Fields

variable [JtagDevice σ]

/-! ## Runs of the moves -/

/-- The loop leaves TCK high after its last tick; lowering it completes the last pulse. -/
theorem clockLoop_run (c : Nat) (w : World σ) :
    ∃ u, clockLoop c w = (.ok (), u) ∧ u.setTck false = (w.setTck false).pulses c := by
  induction c generalizing w with
  | zero => exact ⟨w, rfl, rfl⟩
  | succ c ih =>
    have hlow : (w.setTck false).tck = false := by
      unfold World.setTck
      split
      · assumption
      · rfl
    obtain ⟨u, hu, hset⟩ := ih ((w.setTck false).setTck true)
    refine ⟨u, hu, ?_⟩
    rw [hset, World.setTck_high hlow, World.setTck_riseTck]
    rfl

theorem clockTicks_run {w : World σ} (c : Nat) (h : w.tck = false) :
    clockTicks c w = (.ok (), w.pulses c) := by
  obtain ⟨u, hu, hset⟩ := clockLoop_run c w
  unfold clockTicks
  rw [run_bind_ok (show clockLow w = (.ok (), w) by simp [clockLow, World.setTck_low h]),
    run_bind_ok hu]
  simp only [clockLow, run_update, hset, World.setTck_low h]

/-- TMS and then clocks, as every move of the driver is made. -/
theorem strobe_run {α : Type} {w : World σ} (b : Bool) (c : Nat) (k : Unit → Drv σ α)
    (h : w.tck = false) :
    (update (fun w : World σ => { w with tms := b }) >>= fun _ => clockTicks c >>= k) w =
      k () (w.strobe b c) := by
  rw [run_bind_ok (run_update _ _), run_bind_ok (clockTicks_run c (w := { w with tms := b }) h)]
  rfl

theorem reset_run {w : World σ} (h : w.tck = false) :
    reset w = (.ok (), { w.strobe true 10 with tms := false, state := 'r' }) := by
  unfold reset TMSHigh
  rw [strobe_run _ _ _ h]
  rfl

theorem setState_d_run {w : World σ} (h : w.tck = false) :
    setState 'd' w = (.ok (), { (w.strobe true 1).strobe false 2 with state := 'd' }) := by
  simp only [setState, Char.reduceEq, ↓reduceIte, TMSHigh, TMSLow]
  rw [strobe_run _ _ _ h, strobe_run _ _ _ (World.strobe_tck _ _ h)]
  rfl

theorem setState_i_run {w : World σ} (h : w.tck = false) :
    setState 'i' w = (.ok (), { (w.strobe true 2).strobe false 2 with state := 'i' }) := by
  simp only [setState, Char.reduceEq, ↓reduceIte, TMSHigh, TMSLow]
  rw [strobe_run _ _ _ h, strobe_run _ _ _ (World.strobe_tck _ _ h)]
  rfl

theorem leaveState_r_run {w : World σ} (h : w.tck = false) (hs : w.state = 'r') :
    leaveState w = (.ok (), { w.strobe false 1 with state := 'n' }) := by
  unfold leaveState
  rw [run_bind_ok (run_read w)]
  simp only [hs, ↓reduceIte, TMSLow]
  rw [strobe_run _ _ _ h]
  rfl

/-- The exits of `'i'` and `'d'` are the same moves. -/
theorem leaveState_run {w : World σ} (h : w.tck = false) (hs : w.state = 'i' ∨ w.state = 'd') :
    leaveState w = (.ok (), { (w.strobe true 2).strobe false 1 with state := 'n' }) := by
  unfold leaveState
  rw [run_bind_ok (run_read w)]
  rcases hs with hs | hs
  all_goals
    simp only [hs, Char.reduceEq, ↓reduceIte, TMSHigh, TMSLow]
    rw [strobe_run _ _ _ h, strobe_run _ _ _ (World.strobe_tck _ _ h)]
    rfl

/-! ## Moves between resting points -/

section Resting

variable {p n : Nat} {t : TapState} {c : Char} {E : Halt → World σ → Prop}

theorem setState_d_at :
    Triple (At (σ := σ) .runTestIdle 'n' p n) (setState 'd')
      (fun _ => At .shiftDR 'd' p n) E := by
  refine ⟨fun w hw => ?_⟩
  rw [setState_d_run hw.tck]
  refine ⟨World.strobe_tck _ _ (World.strobe_tck _ _ hw.tck), ?_, ?_, rfl, ?_, ?_, ?_⟩
  · simp
  · simp [hw.tap, TapState.next]
  · simpa using hw.log
  · simpa using hw.patience
  · simpa using hw.waits

theorem setState_i_at :
    Triple (At (σ := σ) .runTestIdle 'n' p n) (setState 'i')
      (fun _ => At .shiftIR 'i' p n) E := by
  refine ⟨fun w hw => ?_⟩
  rw [setState_i_run hw.tck]
  refine ⟨World.strobe_tck _ _ (World.strobe_tck _ _ hw.tck), ?_, ?_, rfl, ?_, ?_, ?_⟩
  · simp
  · simp [hw.tap, TapState.next]
  · simpa using hw.log
  · simpa using hw.patience
  · simpa using hw.waits

theorem leaveState_at (h : (t = .shiftDR ∧ c = 'd') ∨ (t = .shiftIR ∧ c = 'i')) :
    Triple (At (σ := σ) t c p n) leaveState (fun _ => At .runTestIdle 'n' p n) E := by
  refine ⟨fun w hw => ?_⟩
  have hs : w.state = 'i' ∨ w.state = 'd' := by
    rcases h with ⟨-, hc⟩ | ⟨-, hc⟩
    · exact .inr (hw.state.trans hc)
    · exact .inl (hw.state.trans hc)
  rw [leaveState_run hw.tck hs]
  refine ⟨World.strobe_tck _ _ (World.strobe_tck _ _ hw.tck), ?_, ?_, rfl, ?_, ?_, ?_⟩
  · simp
  · rcases h with ⟨ht, -⟩ | ⟨ht, -⟩ <;> simp [hw.tap, ht, TapState.next]
  · simpa using hw.log
  · simpa using hw.patience
  · simpa using hw.waits

/-- `reset` followed by `leaveState` reaches Run-Test/Idle from any controller state. -/
theorem reset_leaveState_run {w : World σ} (h : w.tck = false) :
    (reset >>= fun _ => leaveState) w =
      (.ok (), { World.strobe false 1
        { w.strobe true 10 with tms := false, state := 'r' } with state := 'n' }) := by
  rw [run_bind_ok (reset_run h)]
  exact leaveState_r_run (World.strobe_tck _ _ h) rfl

theorem reset_leaveState_at :
    Triple (fun w : World σ => w.tck = false ∧ (∀ e ∈ w.shiftLog, InStep e) ∧ w.patience = p ∧
        n ≤ w.waits)
      (reset >>= fun _ => leaveState) (fun _ => At .runTestIdle 'n' p n) E := by
  refine ⟨fun w ⟨htck, hlog, hp, hn⟩ => ?_⟩
  rw [reset_leaveState_run htck]
  refine ⟨World.strobe_tck _ _ (World.strobe_tck _ _ htck), ?_, ?_, rfl, ?_, ?_, ?_⟩
  · simp
  · simp only [World.strobe_tap]
    rw [TapState.reset_of_five_le (by decide)]
    rfl
  · simpa using hlog
  · simpa using hp
  · simpa using hn

/-! ## Shifting -/

theorem readTDO_at : Keeps (At (σ := σ) t c p n) E readTDO :=
  ⟨fun _ hw => ⟨hw.tck, hw.tms, hw.tap, hw.state, hw.log, hw.patience, hw.waits⟩⟩

/-- A clock stays in a state that loops on TMS low. -/
theorem clockTick_at (h : TapState.next false t = t) :
    Keeps (At (σ := σ) t c p n) E (clockTicks 1) := by
  refine ⟨fun w hw => ?_⟩
  rw [clockTicks_run 1 hw.tck]
  refine ⟨World.pulses_tck 1 hw.tck, ?_, ?_, ?_, ?_, ?_, ?_⟩
  · simpa using hw.tms
  · simp [hw.tms, hw.tap, h]
  · simpa using hw.state
  · simpa using hw.log
  · simpa using hw.patience
  · simpa using hw.waits

theorem clockLow_at : Keeps (At (σ := σ) t c p n) E clockLow := by
  refine ⟨fun w hw => ?_⟩
  simp only [clockLow, run_update, World.setTck_low hw.tck]
  exact hw

theorem shiftLoop_at (h : TapState.next false t = t) (hin : InStep (t, c)) :
    ∀ (k i : Nat) (data acc : Word), Keeps (At (σ := σ) t c p n) E (shiftLoop k i data acc)
  | 0, _, _, acc => Keeps.pure acc
  | k + 1, i, data, _ => by
    unfold shiftLoop
    refine Keeps.bind readTDO_at fun _ => Keeps.bind (logShift_at hin) fun _ =>
      Keeps.bind (clockTick_at h) fun _ => Keeps.bind ?_ fun _ => shiftLoop_at h hin k _ _ _
    exact Keeps.ite (data_at false) (data_at true)

theorem shiftBits_at (h : TapState.next false t = t) (hin : InStep (t, c)) (data : Word)
    (k : Nat) : Keeps (At (σ := σ) t c p n) E (shiftBits data k) :=
  Keeps.bind clockLow_at fun _ => shiftLoop_at h hin k 0 data 0

theorem shiftDR_inStep : InStep (.shiftDR, 'd') := by simp [InStep]

theorem shiftIR_inStep : InStep (.shiftIR, 'i') := by simp [InStep]

end Resting

/-! ## Scans -/

section Calls

variable {p n : Nat}

/-- A WAIT answer leaves the scan after three bits and starts over from Run-Test/Idle; the retry
bound is reached only after as many WAIT answers. -/
theorem ackLoop_at (addr : Byte) (rw : Bool) (fuel n : Nat) :
    Triple (Idle (σ := σ) p n) (ackLoop addr rw fuel) (fun _ => At .shiftDR 'd' p n)
      (Stopped fuel n) := by
  induction fuel generalizing n with
  | zero => exact Triple.fail fun w hw => ⟨hw.log, fun _ => hw.waits⟩
  | succ fuel ih =>
    have retry : Triple (Idle (σ := σ) p (n + 1)) (ackLoop addr rw fuel)
        (fun _ => At .shiftDR 'd' p n) (Stopped (fuel + 1) n) := by
      refine ⟨fun w hw => ?_⟩
      have h := (ih (n + 1)).run w hw
      cases hr : ackLoop addr rw fuel w with
      | mk r w' =>
        rw [hr] at h
        cases r with
        | ok _ => exact h.mono (Nat.le_succ n)
        | error e => exact ⟨h.1, fun he => by have := h.2 he; omega⟩
    unfold ackLoop
    refine Triple.bind setState_d_at fun _ =>
      Triple.bind (shiftBits_at rfl shiftDR_inStep _ _) fun _ =>
      Triple.bind (shiftBits_at rfl shiftDR_inStep _ _) fun _ => ?_
    refine Triple.ite (fun _ => ?_) fun _ => Triple.ite (fun _ => ?_) fun _ => ?_
    · exact Triple.bind noteWait_at fun _ =>
        Triple.bind (leaveState_at (.inl ⟨rfl, rfl⟩)) fun _ => retry
    · exact Triple.pure fun _ h => h
    · exact Triple.bind (leaveState_at (.inl ⟨rfl, rfl⟩)) fun _ =>
        Triple.fail fun w hw => ⟨hw.log, fun h => by cases h⟩

theorem shiftData_keeps (data : Word) (addr : Byte) (rw : Bool) :
    Keeps (Idle (σ := σ) p n) (Stopped p n) (shiftData data addr rw) := by
  unfold shiftData
  refine Triple.bind (Q := fun v w => v.patience = p ∧ Idle p n w)
    (Triple.read fun w hw => ⟨hw.patience, hw⟩) fun v => ?_
  refine ⟨fun w ⟨hp, hw⟩ => ?_⟩
  rw [hp]
  refine (Triple.bind (ackLoop_at addr rw p n) fun _ => ?_).run w hw
  exact Triple.bind (shiftBits_at rfl shiftDR_inStep _ _) fun _ =>
    Triple.bind (leaveState_at (.inl ⟨rfl, rfl⟩)) fun _ => Keeps.pure _

theorem setIR_keeps (A : Byte) : Keeps (Idle (σ := σ) p n) (Stopped p n) (setIR A) := by
  unfold setIR
  refine Triple.bind setState_i_at fun _ =>
    Triple.bind (shiftBits_at rfl shiftIR_inStep _ _) fun _ => ?_
  exact Triple.ite (fun _ => panic_stopped _) fun _ => leaveState_at (.inr ⟨rfl, rfl⟩)

theorem readID_keeps : Keeps (Idle (σ := σ) p n) (Stopped p n) readID := by
  unfold readID
  refine Triple.bind (setIR_keeps _) fun _ => Triple.bind setState_d_at fun _ =>
    Triple.bind (shiftBits_at rfl shiftDR_inStep _ _) fun _ => ?_
  exact Triple.bind (leaveState_at (.inl ⟨rfl, rfl⟩)) fun _ => Keeps.pure _

theorem reset_leaveState_keeps :
    Keeps (Idle (σ := σ) p n) (Stopped p n) (reset >>= fun _ => leaveState) :=
  Triple.weaken reset_leaveState_at (fun _ hw => ⟨hw.tck, hw.log, hw.patience, hw.waits⟩)
    fun _ _ h => h

/-! ## Register calls -/

theorem rdBuff_keeps (set_ir : Bool) :
    Keeps (Idle (σ := σ) p n) (Stopped p n) (rdBuff set_ir) := by
  unfold rdBuff
  exact Keeps.bind (Keeps.when (setIR_keeps _)) fun _ => shiftData_keeps _ _ _

theorem readACC_keeps (ir addr : Byte) (set_ir rdthis : Bool) :
    Keeps (Idle (σ := σ) p n) (Stopped p n) (readACC ir addr set_ir rdthis) := by
  unfold readACC
  refine Keeps.bind (Keeps.when (setIR_keeps _)) fun _ => Keeps.bind (shiftData_keeps _ _ _)
    fun _ => ?_
  exact Keeps.ite (rdBuff_keeps true) (Keeps.pure _)

theorem writeACC_keeps (ir : Byte) (data : Word) (addr : Byte) (set_ir : Bool) :
    Keeps (Idle (σ := σ) p n) (Stopped p n) (writeACC ir data addr set_ir) := by
  unfold writeACC
  exact Keeps.bind (Keeps.when (setIR_keeps _)) fun _ => Keeps.bind (shiftData_keeps _ _ _)
    fun _ => Keeps.pure _

theorem writeAPACC_keeps (data : Word) (addr : Byte) (set_ir : Bool) :
    Keeps (Idle (σ := σ) p n) (Stopped p n) (writeAPACC data addr set_ir) :=
  writeACC_keeps _ _ _ _

theorem writeDPACC_keeps (data : Word) (addr : Byte) (set_ir : Bool) :
    Keeps (Idle (σ := σ) p n) (Stopped p n) (writeDPACC data addr set_ir) :=
  writeACC_keeps _ _ _ _

theorem writeBanksel_keeps (banksel : Word) (set_ir : Bool) :
    Keeps (Idle (σ := σ) p n) (Stopped p n) (writeBanksel banksel set_ir) :=
  writeACC_keeps _ _ _ _

theorem readAPACC_keeps (addr : Byte) (set_ir rdthis : Bool) :
    Keeps (Idle (σ := σ) p n) (Stopped p n) (readAPACC addr set_ir rdthis) :=
  readACC_keeps _ _ _ _

theorem DAP_enable_keeps : Keeps (Idle (σ := σ) p n) (Stopped p n) DAP_enable := by
  unfold DAP_enable
  rw [show (setState 'r' : Drv σ Unit) = reset from rfl, ← bind_assoc]
  refine Keeps.bind reset_leaveState_keeps fun _ => Keeps.bind (writeDPACC_keeps _ _ _) fun _ => ?_
  exact Keeps.bind (writeDPACC_keeps _ _ _) fun _ => writeAPACC_keeps _ _ _

/-- One round of `PowerupDAP`: write a debug-port register, read one back, check it. -/
theorem checked_keeps {α : Type} (data : Word) (waddr raddr : Byte) (name : String) (want : Word)
    {k : Unit → Drv σ α} (hk : Keeps (Idle p n) (Stopped p n) (k ())) :
    Keeps (Idle (σ := σ) p n) (Stopped p n)
      (writeDPACC data waddr true >>= fun _ => readDPACC raddr true true >>= fun rd =>
        expect name rd want >>= k) :=
  Keeps.bind (writeDPACC_keeps _ _ _) fun _ => Keeps.bind (readACC_keeps _ _ _ _) fun _ =>
    Keeps.bind (expect_keeps _ _ _) fun _ => hk

theorem PowerupDAP_keeps : Keeps (Idle (σ := σ) p n) (Stopped p n) PowerupDAP := by
  unfold PowerupDAP
  refine checked_keeps _ _ _ _ _ (checked_keeps _ _ _ _ _ (checked_keeps _ _ _ _ _
    (checked_keeps _ _ _ _ _ (checked_keeps _ _ _ _ _ ?_))))
  exact Keeps.bind (writeBanksel_keeps _ _) fun _ => Keeps.bind (readAPACC_keeps _ _ _) fun _ =>
    expect_keeps _ _ _

/-! ## Memory calls -/

theorem readMemory_keeps (address : Word) :
    Keeps (Idle (σ := σ) p n) (Stopped p n) (readMemory address) := by
  unfold readMemory
  refine Keeps.bind (writeBanksel_keeps _ _) fun _ => Keeps.bind (writeAPACC_keeps _ _ _) fun _ => ?_
  exact Keeps.bind (writeAPACC_keeps _ _ _) fun _ => readAPACC_keeps _ _ _

theorem writeMemory_keeps (address value : Word) :
    Keeps (Idle (σ := σ) p n) (Stopped p n) (writeMemory address value) := by
  unfold writeMemory
  refine Keeps.bind (writeBanksel_keeps _ _) fun _ => Keeps.bind (writeAPACC_keeps _ _ _) fun _ => ?_
  exact Keeps.bind (writeAPACC_keeps _ _ _) fun _ => writeAPACC_keeps _ _ _

theorem memReadWords_keeps (size : Int) (check print : Bool) (i j : Nat) (acc : ReadAcc) :
    Keeps (Idle (σ := σ) p n) (Stopped p n) (memReadWords size check print i j acc) := by
  fun_induction memReadWords (σ := σ) size check print i j acc with
  | case1 j acc h ih =>
    exact Keeps.bind (readAPACC_keeps _ _ _) fun _ => Keeps.bind (takeWord_keeps _ _ _ _ _) ih
  | case2 j acc h => exact Keeps.pure _

theorem memReadChunks_keeps (size : Int) (check print : Bool) (i : Nat) (addr : Word)
    (acc : ReadAcc) :
    Keeps (Idle (σ := σ) p n) (Stopped p n) (memReadChunks size check print i addr acc) := by
  fun_induction memReadChunks (σ := σ) size check print i addr acc with
  | case1 i addr acc h ih =>
    refine Keeps.bind (writeAPACC_keeps _ _ _) fun _ => Keeps.bind (readAPACC_keeps _ _ _)
      fun _ => Keeps.bind (memReadWords_keeps _ _ _ _ _ _) fun _ => ?_
    exact Keeps.bind (rdBuff_keeps _) fun _ => Keeps.bind (takeWord_keeps _ _ _ _ _) ih
  | case2 i addr acc h => exact Keeps.pure _

theorem memRead_keeps (baseaddr : Word) (readdata : List Word) (size : Int) (check print : Bool) :
    Keeps (Idle (σ := σ) p n) (Stopped p n) (memRead baseaddr readdata size check print) := by
  unfold memRead
  exact Keeps.bind (writeBanksel_keeps _ _) fun _ => Keeps.bind (writeAPACC_keeps _ _ _) fun _ =>
    memReadChunks_keeps _ _ _ _ _ _

theorem memWriteWords_keeps (writedata : List Word) (size : Int) (zero : Bool) (i j : Nat) :
    Keeps (Idle (σ := σ) p n) (Stopped p n) (memWriteWords writedata size zero i j) := by
  fun_induction memWriteWords (σ := σ) writedata size zero i j with
  | case1 j h ih => exact Keeps.bind (writeAPACC_keeps _ _ _) fun _ => ih
  | case2 j h => exact Keeps.pure _

theorem memWriteChunks_keeps (writedata : List Word) (size : Int) (zero : Bool) (i : Nat)
    (addr : Word) :
    Keeps (Idle (σ := σ) p n) (Stopped p n) (memWriteChunks writedata size zero i addr) := by
  fun_induction memWriteChunks (σ := σ) writedata size zero i addr with
  | case1 i addr h ih =>
    exact Keeps.bind (writeAPACC_keeps _ _ _) fun _ => Keeps.bind (memWriteWords_keeps _ _ _ _ _)
      fun _ => ih
  | case2 i addr h => exact Keeps.pure _

theorem memWrite_keeps (baseaddr : Word) (writedata : List Word) (size : Int) (zero : Bool) :
    Keeps (Idle (σ := σ) p n) (Stopped p n) (memWrite baseaddr writedata size zero) := by
  unfold memWrite
  refine Keeps.bind (Keeps.when (Keeps.update fun w hw => ?_)) fun _ => ?_
  · exact ⟨hw.tck, hw.tms, hw.tap, hw.state, hw.log, hw.patience, hw.waits⟩
  · exact Keeps.bind (writeBanksel_keeps _ _) fun _ => Keeps.bind (writeAPACC_keeps _ _ _) fun _ =>
      memWriteChunks_keeps _ _ _ _ _

end Calls

/-! ## Sessions -/

/-- A call of the driver with its arguments. -/
inductive Call where
  | setIR (A : Byte)
  | readID
  | shiftData (data : Word) (addr : Byte) (rw : Bool)
  | rdBuff (set_ir : Bool)
  | readDPACC (addr : Byte) (set_ir rdthis : Bool)
  | readAPACC (addr : Byte) (set_ir rdthis : Bool)
  | writeDPACC (data : Word) (addr : Byte) (set_ir : Bool)
  | writeAPACC (data : Word) (addr : Byte) (set_ir : Bool)
  | writeBanksel (banksel : Word) (set_ir : Bool)
  | DAP_enable
  | PowerupDAP
  | readMemory (address : Word)
  | writeMemory (address value : Word)
  | memRead (baseaddr : Word) (readdata : List Word) (size : Int) (check print : Bool)
  | memWrite (baseaddr : Word) (writedata : List Word) (size : Int) (zero : Bool)
  /-- The pair `reset(); leaveState();`. -/
  | resetLeave

/-- What a call returns. -/
inductive Result where
  | none
  | word (v : Word)
  | words (acc : ReadAcc)

def Call.exec : Call → Drv σ Result
  | setIR A => do Expedition.setIR A; pure .none
  | readID => do pure (.word (← Expedition.readID))
  | shiftData data addr rw => do pure (.word (← Expedition.shiftData data addr rw))
  | rdBuff set_ir => do pure (.word (← Expedition.rdBuff set_ir))
  | readDPACC addr set_ir rdthis => do pure (.word (← Expedition.readDPACC addr set_ir rdthis))
  | readAPACC addr set_ir rdthis => do pure (.word (← Expedition.readAPACC addr set_ir rdthis))
  | writeDPACC data addr set_ir => do Expedition.writeDPACC data addr set_ir; pure .none
  | writeAPACC data addr set_ir => do Expedition.writeAPACC data addr set_ir; pure .none
  | writeBanksel banksel set_ir => do Expedition.writeBanksel banksel set_ir; pure .none
  | DAP_enable => do Expedition.DAP_enable; pure .none
  | PowerupDAP => do Expedition.PowerupDAP; pure .none
  | readMemory address => do pure (.word (← Expedition.readMemory address))
  | writeMemory address value => do Expedition.writeMemory address value; pure .none
  | memRead baseaddr readdata size check print => do
    pure (.words (← Expedition.memRead baseaddr readdata size check print))
  | memWrite baseaddr writedata size zero => do
    Expedition.memWrite baseaddr writedata size zero
    pure .none
  | resetLeave => do (reset >>= fun _ => leaveState); pure .none

/-- A sequence of calls. -/
def execAll : List Call → Drv σ (List Result)
  | [] => pure []
  | c :: cs => do
    let r ← c.exec
    let rs ← execAll cs
    pure (r :: rs)

theorem Call.keeps {p n : Nat} (c : Call) :
    Keeps (Idle (σ := σ) p n) (Stopped p n) c.exec := by
  have done : ∀ {α : Type} {m : Drv σ α} (f : α → Result), Keeps (Idle p n) (Stopped p n) m →
      Keeps (Idle p n) (Stopped p n) (m >>= fun a => (pure (f a) : Drv σ Result)) :=
    fun f hm => Keeps.bind hm fun _ => Keeps.pure _
  cases c with
  | setIR A => exact done _ (setIR_keeps A)
  | readID => exact done _ readID_keeps
  | shiftData data addr rw => exact done _ (shiftData_keeps data addr rw)
  | rdBuff set_ir => exact done _ (rdBuff_keeps set_ir)
  | readDPACC addr set_ir rdthis => exact done _ (readACC_keeps _ addr set_ir rdthis)
  | readAPACC addr set_ir rdthis => exact done _ (readACC_keeps _ addr set_ir rdthis)
  | writeDPACC data addr set_ir => exact done _ (writeDPACC_keeps data addr set_ir)
  | writeAPACC data addr set_ir => exact done _ (writeAPACC_keeps data addr set_ir)
  | writeBanksel banksel set_ir => exact done _ (writeBanksel_keeps banksel set_ir)
  | DAP_enable => exact done _ DAP_enable_keeps
  | PowerupDAP => exact done _ PowerupDAP_keeps
  | readMemory address => exact done _ (readMemory_keeps address)
  | writeMemory address value => exact done _ (writeMemory_keeps address value)
  | memRead b d s c q => exact done _ (memRead_keeps b d s c q)
  | memWrite b d s z => exact done _ (memWrite_keeps b d s z)
  | resetLeave => exact done _ reset_leaveState_keeps

theorem execAll_keeps {p n : Nat} (cs : List Call) :
    Keeps (Idle (σ := σ) p n) (Stopped p n) (execAll cs) := by
  induction cs with
  | nil => exact Keeps.pure _
  | cons c cs ih =>
    unfold execAll
    exact Keeps.bind c.keeps fun _ => Keeps.bind ih fun _ => Keeps.pure _

/-- The board before the driver object exists: any pin levels, any controller state, any device,
and whatever character the `state` field happens to hold. -/
def World.powerOn (tck tms tdi : Bool) (tap : TapState) (dev : σ) (state : Char)
    (patience : Nat) : World σ :=
  { tck, tms, tdi, tap, dev, state, patience, waitIndicator := false, console := [], waits := 0,
    shiftLog := [] }

/-- The constructor, then the calls. -/
def session (cs : List Call) : Drv σ (List Result) := construct >>= fun _ => execAll cs

theorem construct_at (tck tms tdi : Bool) (tap : TapState) (dev : σ) (state : Char) (p : Nat) :
    ∃ w', construct (World.powerOn tck tms tdi tap dev state p) = (.ok (), w') ∧ Idle p 0 w' := by
  obtain ⟨u, hu, htck, hlog, hpat⟩ : ∃ u : World σ,
      (TMSLow >>= fun _ => clockLow >>= fun _ => DataLow)
        (World.powerOn tck tms tdi tap dev state p) = (.ok (), u) ∧
      u.tck = false ∧ u.shiftLog = [] ∧ u.patience = p := by
    refine ⟨_, rfl, ?_⟩
    cases tck
    · exact ⟨rfl, rfl, rfl⟩
    · exact ⟨rfl, rfl, rfl⟩
  have hrun : construct (World.powerOn tck tms tdi tap dev state p) =
      (reset >>= fun _ => leaveState) u := by
    rw [← run_bind_ok (k := fun _ => reset >>= fun _ => leaveState) hu]
    simp only [bind_assoc]
    rfl
  have h := (reset_leaveState_at (E := fun _ _ => False)).run u
    ⟨htck, by rw [hlog]; simp, hpat, Nat.zero_le u.waits⟩
  rw [reset_leaveState_run htck] at h
  exact ⟨_, hrun.trans (reset_leaveState_run htck), h⟩

/-- **The driver never loses the controller.**  From every initial controller state, for every
sequence of calls and every device (so for every stream of TDO values): every clock of
`shiftBits` is made in Shift-IR exactly when `state` is `'i'` and in Shift-DR exactly when it is
`'d'`; where the calls return, `state` is `'n'` and the controller is in Run-Test/Idle; and the
retry bound only runs out after as many WAIT acknowledges, so with fewer of them the calls return
or panic. -/
theorem session_in_step (tck tms tdi : Bool) (tap : TapState) (dev : σ) (state : Char) (p : Nat)
    (cs : List Call) :
    let r := session cs (World.powerOn tck tms tdi tap dev state p)
    (∀ e ∈ r.2.shiftLog, InStep e) ∧
      (∀ rs, r.1 = .ok rs → r.2.state = 'n' ∧ r.2.tap = .runTestIdle) ∧
      (r.1 = .error .starved → p ≤ r.2.waits) := by
  obtain ⟨u, hu, hidle⟩ := construct_at tck tms tdi tap dev state p
  have hrun : session cs (World.powerOn tck tms tdi tap dev state p) = execAll cs u :=
    run_bind_ok hu
  rw [hrun]
  have h := (execAll_keeps cs).run u hidle
  cases hr : execAll cs u with
  | mk r w' =>
    rw [hr] at h
    cases r with
    | ok rs => exact ⟨h.log, fun _ _ => ⟨h.state, h.tap⟩, fun he => by cases he⟩
    | error e =>
      refine ⟨h.1, fun _ he => (by cases he), fun he => ?_⟩
      simpa using h.2 (Except.error.inj he)

end Expedition
