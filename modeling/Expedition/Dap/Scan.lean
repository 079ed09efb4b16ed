import Expedition.Dap.Port
import Expedition.Jtag.Frame

/-!
# One scan of the driver on the debug port

The bit-level driver against the bit-level port, once for each of the two scans it makes:

* `setIR_yields` — `setIR(A)` leaves `A mod 16` in the instruction register and nothing else
  changed;
* `shiftData_yields` — `shiftData(data, addr, rw)` returns the result of the read before, whatever
  number of WAIT answers came first, and the port carries out the request `(rw, addr, data)`
  exactly once.

From here on the driver is a sequence of register transactions: nothing above this module looks at
pins, clocks or bits again.
-/

namespace Expedition

open Exec Bits

variable {μ : Type}

/-- The pattern left after a scan that is repeated until it is not answered WAIT. -/
def settle : List Bool → List Bool
  | true :: rest => settle rest
  | false :: rest => rest
  | [] => []

theorem settle_length_le (l : List Bool) : (settle l).length ≤ l.length := by
  induction l with
  | nil => exact Nat.le_refl _
  | cons b l ih =>
    cases b
    · exact Nat.le_succ _
    · exact Nat.le_succ_of_le ih

/-- The registers when the port has answered OK/FAULT. -/
def Regs.settled (g : Regs μ) : Regs μ := { g with waits := settle g.waits }

theorem captureDR_wait {p : Port μ} (hacc : Port.onACC p.regs) {rest : List Bool}
    (hw : p.regs.waits = true :: rest) :
    p.captureDR = ⟨p.irShift, true :: false :: false :: toBits 32 0, true,
      { p.regs with waits := rest }⟩ := by
  unfold Port.captureDR
  rw [if_pos hacc, hw]

theorem captureDR_ok {p : Port μ} (hacc : Port.onACC p.regs)
    (hw : ∀ rest, p.regs.waits ≠ true :: rest) :
    p.captureDR = ⟨p.irShift, false :: true :: false :: toBits 32 p.regs.rdata.toNat, false,
      { p.regs with waits := p.regs.waits.tail }⟩ := by
  unfold Port.captureDR
  rw [if_pos hacc]
  split
  · rename_i rest h
    exact absurd h (hw rest)
  · rfl

theorem not_onACC {g : Regs μ} (h : g.ir = 0xE) : ¬ Port.onACC g := by
  unfold Port.onACC
  rw [h]
  decide

variable [TargetBus μ]

/-- The driver between two scans of a port with registers `g`; the model's retry bound exceeds the
WAIT answers still to come. -/
structure Rest (w : World (Port μ)) (g : Regs μ) : Prop where
  tck : w.tck = false
  tms : w.tms = false
  tap : w.tap = .runTestIdle
  state : w.state = 'n'
  regs : w.dev.regs = g
  patience : g.waits.length < w.patience

/-! ## The port in the two scan paths -/

theorem Port.dataPath :
    DataPath (σ := Port μ) Port.drShift Port.withDR Port.captureDR Port.updateDR where
  shifts := Port.shifts_dr
  capture _ _ := rfl
  update _ := rfl
  rise_idle _ _ := rfl
  rise_select _ _ := rfl
  rise_exit _ _ := rfl
  rise_update _ _ := rfl
  fall_idle _ := rfl
  fall_select _ := rfl
  fall_capture _ := rfl
  fall_exit _ := rfl

theorem Port.instrPath :
    InstrPath (σ := Port μ) Port.irShift Port.withIR (Port.withIR [true, false, false, false])
      (fun p => { p with regs := { p.regs with ir := BitVec.ofNat 4 (ofBits p.irShift) } }) where
  shifts := Port.shifts_ir
  capture _ _ := rfl
  update _ := rfl
  rise_idle _ _ := rfl
  rise_selectDR _ _ := rfl
  rise_select _ _ := rfl
  rise_exit _ _ := rfl
  rise_update _ _ := rfl
  fall_idle _ := rfl
  fall_selectDR _ := rfl
  fall_select _ := rfl
  fall_capture _ := rfl
  fall_exit _ := rfl

/-- **`setIR`** leaves the low four bits of its argument in the instruction register. -/
theorem setIR_yields (A : Byte) (g : Regs μ) :
    Yields Rest (setIR A) g () { g with ir := A.setWidth 4 } := by
  intro w hw
  obtain ⟨tdi, log, hrun⟩ := setIR_path Port.instrPath hw.tck hw.tap rfl A
  refine ⟨_, hrun, ⟨hw.tck, rfl, rfl, rfl, ?_, hw.patience⟩⟩
  have hir : BitVec.ofNat 4 (ofBits (toBits 4 A.toNat)) = A.setWidth 4 := by
    rw [ofBits_toBits]
    apply BitVec.eq_of_toNat_eq
    simp
  show { w.dev.regs with ir := BitVec.ofNat 4 (ofBits (toBits 4 A.toNat)) } = _
  rw [hir, hw.regs]

/-! ## The acknowledge -/

/-- A scan answered WAIT does nothing at Update-DR. -/
theorem updateDR_wait {p : Port μ} (h : p.scanWait = true) : p.updateDR = p := by
  unfold Port.updateDR
  rw [if_neg (by simp [h])]

/-- Where the retry loop of `shiftData` ends: in Shift-DR, three bits into a scan answered
OK/FAULT. -/
structure Acked (addr : Byte) (rnw : Bool) (g : Regs μ) (w : World (Port μ)) : Prop where
  ready : Ready .shiftDR Port.drShift w
  state : w.state = 'd'
  queue : ∃ stale, queue Port.drShift w =
    toBits 32 g.rdata.toNat ++ stale :: requestBits addr rnw
  scanWait : w.dev.scanWait = false
  regs : w.dev.regs = g.settled

/-- One round of the retry loop up to the acknowledge: `v` is in Shift-DR, three bits into the
scan, with the port as it was captured. -/
theorem ackLoop_succ_run {w : World (Port μ)} {g : Regs μ} (hw : Rest w g) (addr : Byte)
    (rnw : Bool) (fuel : Nat) {b₀ b₁ b₂ : Bool} {rest : List Bool}
    (hcap : w.dev.captureDR.drShift = b₀ :: b₁ :: b₂ :: rest) :
    ∃ v, ackLoop addr rnw (fuel + 1) w =
        (if BitVec.ofNat 32 (ofBits [b₀, b₁, b₂]) = 1 then
          noteWait >>= fun _ => leaveState >>= fun _ => ackLoop addr rnw fuel
        else if BitVec.ofNat 32 (ofBits [b₀, b₁, b₂]) = 2 then pure ()
        else leaveState >>= fun _ => panic "invalid OK Stat\r\n" : Drv (Port μ) Unit) v ∧
      Ready .shiftDR Port.drShift v ∧ v.state = 'd' ∧ v.patience = w.patience ∧
      queue Port.drShift v = rest ++ w.tdi :: requestBits addr rnw ∧
      v.dev.scanWait = w.dev.captureDR.scanWait ∧ v.dev.regs = w.dev.captureDR.regs := by
  obtain ⟨v, hrun, hvr, ⟨r, hvs⟩, hvq⟩ :=
    ackLoop_round Port.dataPath hw.tck hw.tap addr rnw fuel hcap
  exact ⟨v, hrun, hvr, by rw [hvs]; rfl, by rw [hvs]; rfl, hvq, by rw [hvs]; rfl,
    by rw [hvs]; rfl⟩

/-- A round answered WAIT ends where it began, with one answer less to come. -/
theorem ackLoop_wait_run {w : World (Port μ)} {g : Regs μ} (hw : Rest w g) (hacc : Port.onACC g)
    (addr : Byte) (rnw : Bool) (fuel : Nat) {rest : List Bool} (hrest : g.waits = true :: rest) :
    ∃ u, ackLoop addr rnw (fuel + 1) w = ackLoop addr rnw fuel u ∧
      Rest u { g with waits := rest } ∧ u.patience = w.patience := by
  have hcap := captureDR_wait (p := w.dev) (by rw [hw.regs]; exact hacc)
    (by rw [hw.regs]; exact hrest)
  obtain ⟨v, hrun, hvr, hvs, hvp, -, hvw, hvg⟩ := ackLoop_succ_run hw addr rnw fuel
    (by rw [hcap])
  let v' : World (Port μ) := { v with waitIndicator := !v.waitIndicator, waits := v.waits + 1 }
  have hv' : Ready .shiftDR Port.drShift v' := ⟨hvr.tck, hvr.tms, hvr.tap, hvr.reg⟩
  have hleave := leaveState_d_path Port.dataPath hv' hvs
  have hwait : (v'.dev.withDR (queue Port.drShift v').tail).scanWait = true := by
    show v.dev.scanWait = true
    rw [hvw, hcap]
  rw [updateDR_wait hwait] at hleave
  refine ⟨v'.goto .runTestIdle 'n' (v'.dev.withDR (queue Port.drShift v').tail), ?_,
    ⟨hvr.tck, rfl, rfl, rfl, ?_, ?_⟩, hvp⟩
  · rw [hrun, if_pos (by decide), run_bind_ok (show noteWait v = (.ok (), v') from rfl),
      run_bind_ok hleave]
  · show v.dev.regs = _
    rw [hvg, hcap]
    simp only [hw.regs]
  · have hp := hw.patience
    rw [hrest] at hp
    show rest.length < v.patience
    rw [hvp]
    exact Nat.lt_of_succ_lt hp

/-- A round answered OK/FAULT ends the loop. -/
theorem ackLoop_ok_run {w : World (Port μ)} {g : Regs μ} (hw : Rest w g) (hacc : Port.onACC g)
    (addr : Byte) (rnw : Bool) (fuel : Nat) (hok : ∀ rest, g.waits ≠ true :: rest) :
    ∃ u, ackLoop addr rnw (fuel + 1) w = (.ok (), u) ∧ Acked addr rnw g u ∧
      u.patience = w.patience := by
  have hcap := captureDR_ok (p := w.dev) (by rw [hw.regs]; exact hacc)
    (by rw [hw.regs]; exact hok)
  obtain ⟨v, hrun, hvr, hvs, hvp, hvq, hvw, hvg⟩ := ackLoop_succ_run hw addr rnw fuel
    (by rw [hcap])
  have hsettle : settle g.waits = g.waits.tail := by
    cases hl : g.waits with
    | nil => rfl
    | cons b l =>
      cases b
      · rfl
      · exact absurd hl (hok l)
  refine ⟨v, ?_, ⟨hvr, hvs, ⟨w.tdi, ?_⟩, ?_, ?_⟩, hvp⟩
  · rw [hrun, if_neg (by decide), if_pos (by decide)]
    rfl
  · rw [hvq, hw.regs]
  · rw [hvw, hcap]
  · rw [hvg, hcap]
    simp only [hw.regs, Regs.settled, hsettle]

/-- The retry loop, for every pattern of WAIT answers shorter than the bound. -/
theorem ackLoop_run (addr : Byte) (rnw : Bool) (fuel : Nat) :
    ∀ (g : Regs μ) (w : World (Port μ)), Rest w g → Port.onACC g → g.waits.length < fuel →
      ∃ u, ackLoop addr rnw fuel w = (.ok (), u) ∧ Acked addr rnw g u ∧
        u.patience = w.patience := by
  induction fuel with
  | zero => intro g w _ _ h; exact absurd h (Nat.not_lt_zero _)
  | succ fuel ih =>
    intro g w hw hacc hfuel
    by_cases hwait : ∃ rest, g.waits = true :: rest
    · obtain ⟨rest, hrest⟩ := hwait
      obtain ⟨v, hv, hvrest, hvp⟩ := ackLoop_wait_run hw hacc addr rnw fuel hrest
      rw [hrest] at hfuel
      obtain ⟨u, hu, ha, hup⟩ := ih _ v hvrest hacc (Nat.lt_of_succ_lt_succ hfuel)
      refine ⟨u, hv.trans hu, ⟨ha.ready, ha.state, ha.queue, ha.scanWait, ?_⟩, hup.trans hvp⟩
      rw [ha.regs]
      simp [Regs.settled, settle, hrest]
    · exact ackLoop_ok_run hw hacc addr rnw fuel fun rest h => hwait ⟨rest, h⟩

/-! ## The data scan -/

@[simp] theorem transact_waits (g : Regs μ) (rnw : Bool) (a : BitVec 2) (data : Word) :
    (g.transact rnw a data).waits = g.waits := by
  unfold Regs.transact Regs.readAP Regs.writeAP Regs.writeDP Regs.bump
  simp only
  split_ifs <;> rfl

/-- Update-DR of a scan whose register holds a request. -/
theorem updateDR_request {p : Port μ} (hacc : Port.onACC p.regs) (hw : p.scanWait = false)
    (addr : Byte) (rnw : Bool) (data : Word)
    (hreg : p.drShift = requestBits addr rnw ++ toBits 32 data.toNat) :
    p.updateDR.regs = p.regs.transact rnw (addr.extractLsb' 2 2) data := by
  have haddr : BitVec.ofNat 2 (ofBits (toBits 2 (addr.setWidth 32 >>> 2 : Word).toNat)) =
      addr.extractLsb' 2 2 := by
    rw [ofBits_toBits]
    apply BitVec.eq_of_toNat_eq
    simp only [BitVec.toNat_ushiftRight, BitVec.extractLsb'_toNat, BitVec.toNat_setWidth,
      BitVec.toNat_ofNat]
    rw [Nat.mod_eq_of_lt (show addr.toNat < 2 ^ 32 by have := addr.isLt; omega), Nat.mod_mod]
  have hdata : BitVec.ofNat 32 (ofBits (toBits 32 data.toNat)) = data := by
    rw [ofBits_toBits, Nat.mod_eq_of_lt data.isLt, BitVec.ofNat_toNat, BitVec.setWidth_eq]
  have htake : (p.drShift.drop 1).take 2 = toBits 2 (addr.setWidth 32 >>> 2 : Word).toNat := by
    rw [hreg]; rfl
  have hdrop : p.drShift.drop 3 = toBits 32 data.toNat := by
    rw [hreg]; rfl
  have hhead : p.drShift.headD false = rnw := by
    rw [hreg]; rfl
  unfold Port.updateDR
  rw [if_pos ⟨hacc, hw⟩]
  simp only [hhead, htake, hdrop, haddr, hdata]

/-- **`shiftData`** returns the result of the read before and has the request carried out once. -/
theorem shiftData_yields (data : Word) (addr : Byte) (rnw : Bool) {g : Regs μ}
    (hacc : Port.onACC g) :
    Yields Rest (shiftData data addr rnw) g g.rdata
      (g.settled.transact rnw (addr.extractLsb' 2 2) data) := by
  intro w hw
  obtain ⟨u, hu, ha, hup⟩ := ackLoop_run addr rnw w.patience g w hw hacc hw.patience
  obtain ⟨stale, hq⟩ := ha.queue
  obtain ⟨tdi, log, hrun⟩ := dataBits_run Port.dataPath ha.ready ha.state data addr rnw
    (length_toBits _ _) hq
  rw [ofBits_toBits, Nat.mod_eq_of_lt g.rdata.isLt, BitVec.ofNat_toNat, BitVec.setWidth_eq] at hrun
  have huacc : Port.onACC u.dev.regs := by
    rw [ha.regs]
    exact hacc
  have hshift : shiftData data addr rnw w =
      (shiftBits data 32 >>= fun retdata => leaveState >>= fun _ => pure retdata) u := by
    rw [shiftData, run_bind_ok (run_read w), run_bind_ok hu]
  refine ⟨_, hshift.trans hrun, ⟨ha.ready.tck, rfl, rfl, rfl, ?_, ?_⟩⟩
  · show (Port.updateDR _).regs = _
    rw [updateDR_request (p := u.dev.withDR (requestBits addr rnw ++ toBits 32 data.toNat)) huacc
      ha.scanWait addr rnw data rfl]
    show u.dev.regs.transact _ _ _ = _
    rw [ha.regs]
  · show _ < u.patience
    rw [hup, transact_waits]
    exact Nat.lt_of_le_of_lt (settle_length_le _) hw.patience

/-- `readID` reads the identification code and touches no register but the instruction. -/
theorem readID_yields (g : Regs μ) : Yields Rest readID g IDCODE { g with ir := 0xE } := by
  refine Yields.bind (setIR_yields JTAG_IDCODE g) ?_
  intro w hw
  have hir : w.dev.regs.ir = 0xE := by rw [hw.regs]; rfl
  have hcap : w.dev.captureDR = w.dev.withDR (toBits 32 IDCODE.toNat) := by
    unfold Port.captureDR
    rw [if_neg (not_onACC hir), if_pos hir]
    rfl
  have hw₁ : Ready .shiftDR Port.drShift (w.goto .shiftDR 'd' w.dev.captureDR) :=
    ⟨hw.tck, rfl, rfl, by simp [World.goto, hcap, toBits]⟩
  obtain ⟨u, hu, hur, ⟨r, hus⟩, -⟩ := shiftBits_run Port.shifts_dr hw₁ 0 32
  have hret : BitVec.ofNat 32 (ofBits ((queue Port.drShift (w.goto .shiftDR 'd' w.dev.captureDR) ++
      toBits 32 (0 : Word).toNat).take 32)) = IDCODE := by
    rw [queue, hcap, List.append_assoc]
    show BitVec.ofNat 32 (ofBits ((toBits 32 IDCODE.toNat ++ _).take 32)) = IDCODE
    rw [List.take_left' (length_toBits _ _), ofBits_toBits, Nat.mod_eq_of_lt IDCODE.isLt,
      BitVec.ofNat_toNat, BitVec.setWidth_eq]
  have hustate : u.state = 'd' := by rw [hus]; rfl
  have hug : u.dev.regs = { g with ir := 0xE } := by
    rw [hus, hcap]
    exact hw.regs
  have hnot : (u.dev.withDR (queue Port.drShift u).tail).updateDR =
      u.dev.withDR (queue Port.drShift u).tail := by
    unfold Port.updateDR
    rw [if_neg fun h => not_onACC (show u.dev.regs.ir = 0xE by rw [hug]) h.1]
  have hleave := leaveState_d_path Port.dataPath hur hustate
  rw [hnot] at hleave
  refine ⟨u.goto .runTestIdle 'n' (u.dev.withDR (queue Port.drShift u).tail), ?_,
    ⟨hur.tck, rfl, rfl, rfl, hug, ?_⟩⟩
  · rw [run_bind_ok (setState_d_path Port.dataPath hw.tck hw.tap), run_bind_ok hu, hret, run_bind_ok hleave]
    rfl
  · show g.waits.length < u.patience
    rw [hus]
    exact hw.patience

end Expedition
