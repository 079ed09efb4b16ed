import Expedition.Jtag.Shift

/-!
# The frame of a data scan

`shiftData` sends its request in three pieces (one bit, two bits, thirty-two bits) and lets the
clock with which `leaveState` leaves Shift-DR push the last bit in.  This module says what arrives.

* `DataPath`, `InstrPath` — what a device has to do in the two columns of the controller for its
  register to be the one scanned; `setState_d_path`, `leaveState_path` are the ways in and out.
* `ackLoop_round` — one round of the retry loop, whatever the register captured.
* `FrameTap` — the plainest such device: a 35-bit data register that answers from a script, and a
  4-bit instruction register.
* `shiftData_frame` — after any number of WAIT answers, what is in the register at the last
  Update-DR is the request, and what is returned is the data that scan captured.
-/

namespace Expedition

open Exec Bits

variable {σ : Type}

/-- The world after a move to `tap` that leaves TMS low, the `state` field at `state` and the device
at `dev`. -/
def World.goto (w : World σ) (tap : TapState) (state : Char) (dev : σ) : World σ :=
  { w with tms := false, tap := tap, state := state, dev := dev }

variable [JtagDevice σ]

/-! ## Entering and leaving the scan paths -/

/-- The device acts in the data column only where it captures, shifts and updates. -/
structure DataPath (reg : σ → List Bool) (put : List Bool → σ → σ) (capture update : σ → σ) :
    Prop where
  shifts : Shifts .shiftDR reg put
  capture : ∀ b s, JtagDevice.rise .captureDR b s = capture s
  update : ∀ s : σ, JtagDevice.fall .updateDR s = update s
  rise_idle : ∀ b (s : σ), JtagDevice.rise .runTestIdle b s = s
  rise_select : ∀ b (s : σ), JtagDevice.rise .selectDR b s = s
  rise_exit : ∀ b (s : σ), JtagDevice.rise .exit1DR b s = s
  rise_update : ∀ b (s : σ), JtagDevice.rise .updateDR b s = s
  fall_idle : ∀ s : σ, JtagDevice.fall .runTestIdle s = s
  fall_select : ∀ s : σ, JtagDevice.fall .selectDR s = s
  fall_capture : ∀ s : σ, JtagDevice.fall .captureDR s = s
  fall_exit : ∀ s : σ, JtagDevice.fall .exit1DR s = s

/-- The same of the instruction column, which is entered through Select-DR. -/
structure InstrPath (reg : σ → List Bool) (put : List Bool → σ → σ) (capture update : σ → σ) :
    Prop where
  shifts : Shifts .shiftIR reg put
  capture : ∀ b s, JtagDevice.rise .captureIR b s = capture s
  update : ∀ s : σ, JtagDevice.fall .updateIR s = update s
  rise_idle : ∀ b (s : σ), JtagDevice.rise .runTestIdle b s = s
  rise_selectDR : ∀ b (s : σ), JtagDevice.rise .selectDR b s = s
  rise_select : ∀ b (s : σ), JtagDevice.rise .selectIR b s = s
  rise_exit : ∀ b (s : σ), JtagDevice.rise .exit1IR b s = s
  rise_update : ∀ b (s : σ), JtagDevice.rise .updateIR b s = s
  fall_idle : ∀ s : σ, JtagDevice.fall .runTestIdle s = s
  fall_selectDR : ∀ s : σ, JtagDevice.fall .selectDR s = s
  fall_select : ∀ s : σ, JtagDevice.fall .selectIR s = s
  fall_capture : ∀ s : σ, JtagDevice.fall .captureIR s = s
  fall_exit : ∀ s : σ, JtagDevice.fall .exit1IR s = s

section

variable {reg : σ → List Bool} {put : List Bool → σ → σ} {capture update : σ → σ} {w : World σ}

theorem setState_d_path (hp : DataPath reg put capture update) (hck : w.tck = false)
    (htap : w.tap = .runTestIdle) :
    setState 'd' w = (.ok (), w.goto .shiftDR 'd' (capture w.dev)) := by
  rw [setState_d_run hck]
  obtain ⟨tck, tms, tdi, tap, dev, state, led, console, patience, waits, log⟩ := w
  cases hck
  cases htap
  simp [World.goto, World.strobe, World.pulses, World.pulse, World.riseTck, World.fallTck,
    TapState.next, hp.rise_idle, hp.rise_select, hp.capture, hp.fall_select, hp.fall_capture,
    hp.shifts.fall]

theorem setState_i_path (hp : InstrPath reg put capture update) (hck : w.tck = false)
    (htap : w.tap = .runTestIdle) :
    setState 'i' w = (.ok (), w.goto .shiftIR 'i' (capture w.dev)) := by
  rw [setState_i_run hck]
  obtain ⟨tck, tms, tdi, tap, dev, state, led, console, patience, waits, log⟩ := w
  cases hck
  cases htap
  simp [World.goto, World.strobe, World.pulses, World.pulse, World.riseTck, World.fallTck,
    TapState.next, hp.rise_idle, hp.rise_selectDR, hp.rise_select, hp.capture, hp.fall_selectDR,
    hp.fall_select, hp.fall_capture, hp.shifts.fall]

/-- Leaving Shift-DR makes one more shift, which brings the level waiting on TDI in, and updates. -/
theorem leaveState_d_path (hp : DataPath reg put capture update) (hw : Ready .shiftDR reg w)
    (hs : w.state = 'd') :
    leaveState w =
      (.ok (), w.goto .runTestIdle 'n' (update (put (queue reg w).tail w.dev))) := by
  rw [leaveState_run hw.tck (.inr hs), queue, tail_append_singleton hw.reg]
  obtain ⟨tck, tms, tdi, tap, dev, state, led, console, patience, waits, log⟩ := w
  obtain ⟨rfl, rfl, rfl, -⟩ := hw
  simp [World.goto, World.strobe, World.pulses, World.pulse, World.riseTck, World.fallTck,
    TapState.next, hp.shifts.rise, hp.fall_exit, hp.rise_exit, hp.update, hp.rise_update,
    hp.fall_idle]

theorem leaveState_i_path (hp : InstrPath reg put capture update) (hw : Ready .shiftIR reg w)
    (hs : w.state = 'i') :
    leaveState w =
      (.ok (), w.goto .runTestIdle 'n' (update (put (queue reg w).tail w.dev))) := by
  rw [leaveState_run hw.tck (.inl hs), queue, tail_append_singleton hw.reg]
  obtain ⟨tck, tms, tdi, tap, dev, state, led, console, patience, waits, log⟩ := w
  obtain ⟨rfl, rfl, rfl, -⟩ := hw
  simp [World.goto, World.strobe, World.pulses, World.pulse, World.riseTck, World.fallTck,
    TapState.next, hp.shifts.rise, hp.fall_exit, hp.rise_exit, hp.update, hp.rise_update,
    hp.fall_idle]

/-! ## The instruction register -/

/-- `setIR` on a device whose instruction register captures 0001: the low four bits of the argument
are in the register when it updates. -/
theorem setIR_path (hp : InstrPath reg put capture update) (hck : w.tck = false)
    (htap : w.tap = .runTestIdle) (hcap : reg (capture w.dev) = [true, false, false, false])
    (A : Byte) :
    ∃ tdi log, setIR A w =
      (.ok (), { w.goto .runTestIdle 'n' (update (put (toBits 4 A.toNat) (capture w.dev))) with
        tdi := tdi, shiftLog := log }) := by
  let v := w.goto .shiftIR 'i' (capture w.dev)
  have hv : Ready .shiftIR reg v := ⟨hck, rfl, rfl, by simp [v, World.goto, hcap]⟩
  obtain ⟨u, hu, hur, ⟨r, hus⟩, huq⟩ := shiftBits_run hp.shifts hv (A.setWidth 32) 4
  have hA : (A.setWidth 32 : Word).toNat = A.toNat := by
    rw [BitVec.toNat_setWidth, Nat.mod_eq_of_lt (by have := A.isLt; omega)]
  have hq : queue reg v = [true, false, false, false, w.tdi] := by
    show reg (capture w.dev) ++ [w.tdi] = _
    rw [hcap]
    rfl
  have htail : (queue reg u).tail = toBits 4 A.toNat := by
    rw [huq, hq, hA]
    rfl
  have hone : ofBits ((queue reg v ++ toBits 4 (A.setWidth 32 : Word).toNat).take 4) = 1 := by
    rw [hq]
    rfl
  have hustate : u.state = 'i' := by rw [hus]; rfl
  have hrun : setIR A w = leaveState u := by
    rw [setIR, run_bind_ok (setState_i_path hp hck htap), run_bind_ok hu, hone]
    rfl
  refine ⟨u.tdi, u.shiftLog, ?_⟩
  rw [hrun, leaveState_i_path hp hur hustate, htail]
  have hdev : put (toBits 4 A.toNat) u.dev = put (toBits 4 A.toNat) (capture w.dev) := by
    rw [hus, hp.shifts.put_put]
    rfl
  rw [hdev, hus]
  rfl

/-! ## The acknowledge -/

/-- The three acknowledge bits as `shiftData` puts them together. -/
theorem okstat_eq (b₀ b₁ b₂ : Bool) :
    BitVec.ofNat 32 (ofBits [b₀]) ||| (BitVec.ofNat 32 (ofBits [b₁, b₂]) <<< 1) =
      BitVec.ofNat 32 (ofBits [b₀, b₁, b₂]) := by
  cases b₀ <;> cases b₁ <;> cases b₂ <;> decide

/-- The request bits `shiftData` sends with an address. -/
def requestBits (addr : Byte) (rnw : Bool) : List Bool :=
  rnw :: toBits 2 (addr.setWidth 32 >>> 2 : Word).toNat

/-- The first three bits of a scan whose register captured `b₀ b₁ b₂ rest`. -/
theorem ackBits_run (hs : Shifts .shiftDR reg put) (hw : Ready .shiftDR reg w) (addr : Byte)
    (rnw : Bool) {b₀ b₁ b₂ : Bool} {rest : List Bool} (hcap : reg w.dev = b₀ :: b₁ :: b₂ :: rest) :
    ∃ u v, shiftBits (if rnw then 1 else 0) 1 w = (.ok (BitVec.ofNat 32 (ofBits [b₀])), u) ∧
      shiftBits (addr.setWidth 32 >>> 2) 2 u = (.ok (BitVec.ofNat 32 (ofBits [b₁, b₂])), v) ∧
      Ready .shiftDR reg v ∧ SameBut put w v ∧
      queue reg v = rest ++ w.tdi :: requestBits addr rnw := by
  have hrnw : toBits 1 (if rnw then 1 else 0 : Word).toNat = [rnw] := by
    cases rnw <;> rfl
  obtain ⟨u, hu, hur, hus, huq⟩ := shiftBits_run hs hw (if rnw then 1 else 0) 1
  obtain ⟨v, hv, hvr, hvs, hvq⟩ := shiftBits_run hs hur (addr.setWidth 32 >>> 2) 2
  have hqw : queue reg w = b₀ :: b₁ :: b₂ :: (rest ++ [w.tdi]) := by
    rw [queue, hcap]; rfl
  have hqu : queue reg u = b₁ :: b₂ :: (rest ++ [w.tdi, rnw]) := by
    rw [huq, hqw, hrnw]; simp
  refine ⟨u, v, ?_, ?_, hvr, hus.trans hs hvs, ?_⟩
  · rw [hu, hqw]; rfl
  · rw [hv, hqu]; rfl
  · rw [hvq, hqu]; simp [requestBits]

/-- One round of the retry loop up to the acknowledge: `v` is in Shift-DR, three bits into the
scan, and the level that was waiting on TDI stands between what was captured and the request. -/
theorem ackLoop_round (hp : DataPath reg put capture update) (hck : w.tck = false)
    (htap : w.tap = .runTestIdle) (addr : Byte) (rnw : Bool) (fuel : Nat) {b₀ b₁ b₂ : Bool}
    {rest : List Bool} (hcap : reg (capture w.dev) = b₀ :: b₁ :: b₂ :: rest) :
    ∃ v, ackLoop addr rnw (fuel + 1) w =
        (if BitVec.ofNat 32 (ofBits [b₀, b₁, b₂]) = 1 then
          noteWait >>= fun _ => leaveState >>= fun _ => ackLoop addr rnw fuel
        else if BitVec.ofNat 32 (ofBits [b₀, b₁, b₂]) = 2 then pure ()
        else leaveState >>= fun _ => panic "invalid OK Stat\r\n" : Drv σ Unit) v ∧
      Ready .shiftDR reg v ∧ SameBut put (w.goto .shiftDR 'd' (capture w.dev)) v ∧
      queue reg v = rest ++ w.tdi :: requestBits addr rnw := by
  have hw₁ : Ready .shiftDR reg (w.goto .shiftDR 'd' (capture w.dev)) :=
    ⟨hck, rfl, rfl, by simp [World.goto, hcap]⟩
  obtain ⟨u, v, hu, hv, hvr, hvs, hvq⟩ := ackBits_run hp.shifts hw₁ addr rnw hcap
  refine ⟨v, ?_, hvr, hvs, hvq⟩
  rw [ackLoop, run_bind_ok (setState_d_path hp hck htap), run_bind_ok hu, run_bind_ok hv,
    okstat_eq]

/-- The end of the scan: the word captured is returned, the stale level falls off and the request
is in the register when it updates. -/
theorem dataBits_run (hp : DataPath reg put capture update) (hw : Ready .shiftDR reg w)
    (hs : w.state = 'd') (data : Word) (addr : Byte) (rnw : Bool) {rest : List Bool} {stale : Bool}
    (hrest : rest.length = 32) (hq : queue reg w = rest ++ stale :: requestBits addr rnw) :
    ∃ tdi log, (shiftBits data 32 >>= fun retdata => leaveState >>= fun _ => pure retdata) w =
      (.ok (BitVec.ofNat 32 (ofBits rest)), { w.goto .runTestIdle 'n'
        (update (put (requestBits addr rnw ++ toBits 32 data.toNat) w.dev)) with
        tdi := tdi, shiftLog := log }) := by
  obtain ⟨v, hv, hvr, ⟨r, hvs⟩, hvq⟩ := shiftBits_run hp.shifts hw data 32
  have hret : (queue reg w ++ toBits 32 data.toNat).take 32 = rest := by
    rw [hq, List.append_assoc, List.take_left' hrest]
  have htail : (queue reg v).tail = requestBits addr rnw ++ toBits 32 data.toNat := by
    rw [hvq, hq, List.append_assoc, List.drop_left' hrest]
    rfl
  have hvstate : v.state = 'd' := by rw [hvs]; exact hs
  have hdev : put (queue reg v).tail v.dev =
      put (requestBits addr rnw ++ toBits 32 data.toNat) w.dev := by
    rw [htail, hvs, hp.shifts.put_put]
  refine ⟨v.tdi, v.shiftLog, ?_⟩
  rw [run_bind_ok hv, hret, run_bind_ok (leaveState_d_path hp hvr hvstate), hdev, hvs]
  rfl

end

/-! ## A data register that answers from a script -/

/-- A data scan as the device saw it: what it captured, and its register at Update-DR. -/
structure FrameScan where
  captured : BitVec 35
  register : List Bool

/-- A 35-bit data register and a 4-bit instruction register.  Scan number `n` captures `answer n`;
a scan that captured the acknowledge 001 (WAIT) is discarded, any other leaves its register in
`held`. -/
structure FrameTap where
  irShift : List Bool
  ir : List Bool
  drShift : List Bool
  captured : BitVec 35
  held : List Bool
  answer : Nat → BitVec 35
  scans : List FrameScan

namespace FrameTap

def withDR (r : List Bool) (p : FrameTap) : FrameTap := { p with drShift := r }

def withIR (r : List Bool) (p : FrameTap) : FrameTap := { p with irShift := r }

/-- The acknowledge of an answer, its three low bits. -/
def ack (a : BitVec 35) : BitVec 3 := a.extractLsb' 0 3

def captureDR (p : FrameTap) : FrameTap :=
  { p with captured := p.answer p.scans.length, drShift := toBits 35 (p.answer p.scans.length).toNat }

def updateDR (p : FrameTap) : FrameTap :=
  { p with held := if ack p.captured = 1 then p.held else p.drShift,
           scans := p.scans ++ [⟨p.captured, p.drShift⟩] }

def updateIR (p : FrameTap) : FrameTap := { p with ir := p.irShift }

instance : JtagDevice FrameTap where
  tdo t p := (match t with
    | .shiftIR => p.irShift.headD false
    | .shiftDR => p.drShift.headD false
    | _ => false, p)
  rise t tdi p := match t with
    | .captureIR => p.withIR [true, false, false, false]
    | .shiftIR => p.withIR (p.irShift.tail ++ [tdi])
    | .captureDR => p.captureDR
    | .shiftDR => p.withDR (p.drShift.tail ++ [tdi])
    | _ => p
  fall t p := match t with
    | .updateIR => p.updateIR
    | .updateDR => p.updateDR
    | _ => p

theorem dataPath : DataPath FrameTap.drShift withDR captureDR updateDR where
  shifts := ⟨rfl, fun _ => rfl, fun _ _ => rfl, fun _ => rfl, fun _ _ => rfl, fun _ _ _ => rfl,
    fun _ => rfl⟩
  capture _ _ := rfl
  update _ := rfl
  rise_idle _ _ := rfl
  rise_select _ _ := rfl
  rise_exit _ _ := rfl
  rise_update _ _ := rfl
  fall_idle _ := rfl
  fall_select _ := rfl
  fall_capture _ := rfl
  fall_exit _ := rfl

theorem instrPath :
    InstrPath FrameTap.irShift withIR (withIR [true, false, false, false]) updateIR where
  shifts := ⟨rfl, fun _ => rfl, fun _ _ => rfl, fun _ => rfl, fun _ _ => rfl, fun _ _ _ => rfl,
    fun _ => rfl⟩
  capture _ _ := rfl
  update _ := rfl
  rise_idle _ _ := rfl
  rise_selectDR _ _ := rfl
  rise_select _ _ := rfl
  rise_exit _ _ := rfl
  rise_update _ _ := rfl
  fall_idle _ := rfl
  fall_selectDR _ := rfl
  fall_select _ := rfl
  fall_capture _ := rfl
  fall_exit _ := rfl

end FrameTap

/-- The driver between two calls; TDI is at whatever level the last one left it. -/
structure Between (w : World FrameTap) : Prop where
  tck : w.tck = false
  tms : w.tms = false
  tap : w.tap = .runTestIdle
  state : w.state = 'n'

/-- The number `shiftData` is to send. -/
def frameOf (data : Word) (addr : Byte) (rnw : Bool) : Nat :=
  data.toNat * 8 + addr.toNat / 4 % 4 * 2 + rnw.toNat

theorem ofBits_request (data : Word) (addr : Byte) (rnw : Bool) :
    ofBits (requestBits addr rnw ++ toBits 32 data.toNat) = frameOf data addr rnw := by
  have haddr : (addr.setWidth 32 >>> 2 : Word).toNat = addr.toNat / 4 := by
    rw [BitVec.toNat_ushiftRight, BitVec.toNat_setWidth,
      Nat.mod_eq_of_lt (by have := addr.isLt; omega), Nat.shiftRight_eq_div_pow]
  have hdata := data.isLt
  rw [ofBits_append, ofBits_toBits, requestBits, ofBits, ofBits_toBits, haddr, frameOf,
    List.length_cons, length_toBits]
  omega

theorem length_request (data : Word) (addr : Byte) (rnw : Bool) :
    (requestBits addr rnw ++ toBits 32 data.toNat).length = 35 := by
  rw [List.length_append, requestBits, List.length_cons, length_toBits, length_toBits]

/-- The bits captured, split where the acknowledge ends. -/
theorem toBits_answer (a : BitVec 35) :
    ∃ b₀ b₁ b₂, toBits 35 a.toNat = b₀ :: b₁ :: b₂ :: toBits 32 (a.extractLsb' 3 32).toNat ∧
      ofBits [b₀, b₁, b₂] = (FrameTap.ack a).toNat := by
  have hsplit : toBits 35 a.toNat = toBits 3 a.toNat ++ toBits 32 (a.toNat / 2 ^ 3) :=
    toBits_add 3 32 a.toNat
  have hrest : toBits 32 (a.extractLsb' 3 32).toNat = toBits 32 (a.toNat / 2 ^ 3) := by
    rw [BitVec.extractLsb'_toNat, Nat.shiftRight_eq_div_pow, toBits_mod]
  refine ⟨_, _, _, by rw [hsplit, hrest]; rfl, ?_⟩
  show ofBits (toBits 3 a.toNat) = _
  rw [ofBits_toBits, FrameTap.ack, BitVec.extractLsb'_toNat, Nat.shiftRight_zero]

/-! ## The retry loop on it -/

variable {w : World FrameTap}

/-- Where the retry loop ends: in Shift-DR, three bits into the scan that captured `a`, the device
otherwise as `p`. -/
structure Accepted (addr : Byte) (rnw : Bool) (a : BitVec 35) (p : FrameTap) (w : World FrameTap) :
    Prop where
  ready : Ready .shiftDR FrameTap.drShift w
  state : w.state = 'd'
  queue : ∃ stale, queue FrameTap.drShift w =
    toBits 32 (a.extractLsb' 3 32).toNat ++ stale :: requestBits addr rnw
  dev : ∃ r, w.dev = FrameTap.withDR r { p with captured := a }

/-- A discarded scan: it is in the log and changed nothing else that a later scan depends on. -/
structure Discards (p q : FrameTap) : Prop where
  scans : ∃ r, q.scans = p.scans ++ [⟨p.answer p.scans.length, r⟩]
  answer : q.answer = p.answer
  held : q.held = p.held

/-- A round answered WAIT ends where it began, one scan later. -/
theorem ackLoop_discards (hw : Between w) (addr : Byte) (rnw : Bool) (fuel : Nat)
    (hwait : FrameTap.ack (w.dev.answer w.dev.scans.length) = 1) :
    ∃ u, ackLoop addr rnw (fuel + 1) w = ackLoop addr rnw fuel u ∧ Between u ∧
      Discards w.dev u.dev := by
  obtain ⟨b₀, b₁, b₂, hbits, hack⟩ := toBits_answer (w.dev.answer w.dev.scans.length)
  obtain ⟨v, hrun, hvr, ⟨r, hvs⟩, -⟩ := ackLoop_round FrameTap.dataPath hw.tck hw.tap addr rnw fuel
    hbits
  let v' : World FrameTap := { v with waitIndicator := !v.waitIndicator, waits := v.waits + 1 }
  have hv' : Ready .shiftDR FrameTap.drShift v' := ⟨hvr.tck, hvr.tms, hvr.tap, hvr.reg⟩
  have hvstate : v'.state = 'd' := by
    show v.state = 'd'
    rw [hvs]
    rfl
  have hleave := leaveState_d_path FrameTap.dataPath hv' hvstate
  have hdev : v'.dev = FrameTap.withDR r w.dev.captureDR := by
    show v.dev = _
    rw [hvs]
    rfl
  rw [hdev] at hleave
  refine ⟨v'.goto .runTestIdle 'n' (FrameTap.updateDR (FrameTap.withDR
    (queue FrameTap.drShift v').tail (FrameTap.withDR r w.dev.captureDR))), ?_,
    ⟨hvr.tck, rfl, rfl, rfl⟩, ⟨⟨_, rfl⟩, rfl, ?_⟩⟩
  · rw [hrun, hack, hwait, if_pos (by decide),
      run_bind_ok (show noteWait v = (.ok (), v') from rfl), run_bind_ok hleave]
  · exact if_pos hwait

/-- A round answered OK/FAULT ends the loop. -/
theorem ackLoop_accepts (hw : Between w) (addr : Byte) (rnw : Bool) (fuel : Nat)
    (hok : FrameTap.ack (w.dev.answer w.dev.scans.length) = 2) :
    ∃ u, ackLoop addr rnw (fuel + 1) w = (.ok (), u) ∧
      Accepted addr rnw (w.dev.answer w.dev.scans.length) w.dev u := by
  obtain ⟨b₀, b₁, b₂, hbits, hack⟩ := toBits_answer (w.dev.answer w.dev.scans.length)
  obtain ⟨v, hrun, hvr, ⟨r, hvs⟩, hvq⟩ := ackLoop_round FrameTap.dataPath hw.tck hw.tap addr rnw
    fuel hbits
  refine ⟨v, ?_, hvr, by rw [hvs]; rfl, ⟨w.tdi, hvq⟩, ⟨r, by rw [hvs]; rfl⟩⟩
  rw [hrun, hack, hok, if_neg (by decide), if_pos (by decide)]
  rfl

/-- The retry loop: `k` scans are discarded and the next one is taken. -/
theorem ackLoop_frames (addr : Byte) (rnw : Bool) (k : Nat) :
    ∀ (w : World FrameTap) (fuel : Nat), Between w → k < fuel →
      (∀ i < k, FrameTap.ack (w.dev.answer (w.dev.scans.length + i)) = 1) →
      FrameTap.ack (w.dev.answer (w.dev.scans.length + k)) = 2 →
      ∃ u p, ackLoop addr rnw fuel w = (.ok (), u) ∧
        Accepted addr rnw (w.dev.answer (w.dev.scans.length + k)) p u ∧
        (∃ discarded, discarded.length = k ∧ p.scans = w.dev.scans ++ discarded) ∧
        p.held = w.dev.held := by
  induction k with
  | zero =>
    intro w fuel hw hfuel _ hok
    obtain ⟨fuel, rfl⟩ := Nat.exists_eq_succ_of_ne_zero (by omega : fuel ≠ 0)
    obtain ⟨u, hu, ha⟩ := ackLoop_accepts hw addr rnw fuel hok
    exact ⟨u, w.dev, hu, ha, ⟨[], rfl, by simp⟩, rfl⟩
  | succ k ih =>
    intro w fuel hw hfuel hwait hok
    obtain ⟨fuel, rfl⟩ := Nat.exists_eq_succ_of_ne_zero (by omega : fuel ≠ 0)
    obtain ⟨v, hv, hvidle, ⟨⟨r, hscans⟩, hanswer, hheld⟩⟩ :=
      ackLoop_discards hw addr rnw fuel (hwait 0 (by omega))
    have hlength : v.dev.scans.length = w.dev.scans.length + 1 := by
      rw [hscans, List.length_append]
      rfl
    have hanswer' : ∀ i, v.dev.answer (v.dev.scans.length + i) =
        w.dev.answer (w.dev.scans.length + (i + 1)) := by
      intro i
      rw [hanswer, hlength]
      congr 1
      omega
    obtain ⟨u, p, hu, ha, ⟨discarded, hk, hp⟩, hpheld⟩ := ih v fuel hvidle (by omega)
      (fun i hi => by rw [hanswer']; exact hwait (i + 1) (by omega)) (by rw [hanswer']; exact hok)
    refine ⟨u, p, hv.trans hu, ?_, ⟨⟨w.dev.answer w.dev.scans.length, r⟩ :: discarded, ?_, ?_⟩,
      hpheld.trans hheld⟩
    · rwa [hanswer'] at ha
    · rw [List.length_cons, hk]
    · rw [hp, hscans, List.append_assoc]
      rfl

/-! ## What arrives -/

/-- What `shiftData(data, addr, rnw)` has done from `w` to `u` when `k` WAIT answers came first:
`k + 1` scans, the last with the request in its register. -/
structure Framed (k : Nat) (data : Word) (addr : Byte) (rnw : Bool) (w u : World FrameTap) : Prop where
  between : Between u
  count : u.dev.scans.length = w.dev.scans.length + (k + 1)
  last : ∃ before register,
    u.dev.scans = before ++ [⟨w.dev.answer (w.dev.scans.length + k), register⟩] ∧
      register.length = 35 ∧ ofBits register = frameOf data addr rnw ∧ u.dev.held = register

theorem shiftData_framed (hw : Between w) (k : Nat) (hpatience : k < w.patience)
    (hwait : ∀ i < k, FrameTap.ack (w.dev.answer (w.dev.scans.length + i)) = 1)
    (hok : FrameTap.ack (w.dev.answer (w.dev.scans.length + k)) = 2) (data : Word) (addr : Byte)
    (rnw : Bool) :
    ∃ u, shiftData data addr rnw w =
        (.ok ((w.dev.answer (w.dev.scans.length + k)).extractLsb' 3 32), u) ∧
      Framed k data addr rnw w u := by
  obtain ⟨u, p, hu, ha, ⟨discarded, hk, hp⟩, -⟩ :=
    ackLoop_frames addr rnw k w w.patience hw hpatience hwait hok
  obtain ⟨stale, hq⟩ := ha.queue
  obtain ⟨r, hdev⟩ := ha.dev
  obtain ⟨tdi, log, hrun⟩ := dataBits_run FrameTap.dataPath ha.ready ha.state data addr rnw
    (length_toBits _ _) hq
  rw [ofBits_toBits, Nat.mod_eq_of_lt (BitVec.isLt _), BitVec.ofNat_toNat, BitVec.setWidth_eq,
    hdev] at hrun
  have hshift : shiftData data addr rnw w =
      (shiftBits data 32 >>= fun retdata => leaveState >>= fun _ => pure retdata) u := by
    rw [shiftData, run_bind_ok (run_read w), run_bind_ok hu]
  refine ⟨_, hshift.trans hrun, ⟨ha.ready.tck, rfl, rfl, rfl⟩, ?_, ⟨p.scans,
    requestBits addr rnw ++ toBits 32 data.toNat, rfl, length_request data addr rnw,
    ofBits_request data addr rnw, ?_⟩⟩
  · show (p.scans ++ [_]).length = _
    rw [hp, List.length_append, List.length_append, hk]
    rfl
  · have hne : ¬ FrameTap.ack (w.dev.answer (w.dev.scans.length + k)) = 1 := by
      rw [hok]
      decide
    exact if_neg hne

/-- **The frame arrives.**  From wherever an earlier call left TDI: after `k` WAIT answers and an
OK/FAULT one, `shiftData` has made `k + 1` scans, the register at the last Update-DR is the frame of
its arguments and the word returned is bits 3 to 34 of what that scan captured; and `setIR(A)`
leaves `A mod 16` in the instruction register. -/
theorem scans_frame (w : World FrameTap) (hw : Between w) :
    (∀ (k : Nat) (data : Word) (addr : Byte) (rnw : Bool), k < w.patience →
      (∀ i < k, FrameTap.ack (w.dev.answer (w.dev.scans.length + i)) = 1) →
      FrameTap.ack (w.dev.answer (w.dev.scans.length + k)) = 2 →
      ∃ u, shiftData data addr rnw w =
          (.ok ((w.dev.answer (w.dev.scans.length + k)).extractLsb' 3 32), u) ∧
        Framed k data addr rnw w u) ∧
    ∀ A : Byte, ∃ u, setIR A w = (.ok (), u) ∧ Between u ∧ u.dev.ir.length = 4 ∧
      ofBits u.dev.ir = A.toNat % 16 := by
  constructor
  · intro k data addr rnw hpatience hwait hok
    exact shiftData_framed hw k hpatience hwait hok data addr rnw
  · intro A
    obtain ⟨tdi, log, hrun⟩ := setIR_path FrameTap.instrPath hw.tck hw.tap rfl A
    exact ⟨_, hrun, ⟨hw.tck, rfl, rfl, rfl⟩, length_toBits _ _, ofBits_toBits 4 A.toNat⟩

/-- Two WAIT answers and then data, with TDI left high. -/
def busyTwice : World FrameTap where
  tck := false
  tms := false
  tdi := true
  tap := .runTestIdle
  dev := ⟨[], [], [], 0, [], fun n => if n < 2 then 1 else 0x6F56DF77A, []⟩
  state := 'n'
  waitIndicator := false
  console := []
  patience := 3
  waits := 0
  shiftLog := []

/-- The word 0xDEADBEEF comes back from the third scan. -/
theorem scans_frame_busyTwice :
    ∃ u, shiftData 0x12345678 0xC READ busyTwice = (.ok 0xDEADBEEF, u) ∧
      Framed 2 0x12345678 0xC READ busyTwice u :=
  (scans_frame busyTwice ⟨rfl, rfl, rfl, rfl⟩).1 2 0x12345678 0xC READ (by decide)
    (by decide) (by decide)

end Expedition
