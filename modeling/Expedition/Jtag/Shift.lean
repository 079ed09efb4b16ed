import Expedition.Jtag.Tracking
import Expedition.Lib.Bits

/-!
# `shiftBits` on a serial register

`shiftBits` sets TDI after each clock, so a bit it is given enters the register one clock later.
The way to see through this is to count the TDI level as the register's last cell: for a register
`reg` the `queue` is `reg ++ [TDI]`, and then one round of the loop reads the head of the queue,
drops it and appends the data bit.

* `Shifts t reg put` — a device whose register `reg` is in the scan path in controller state `t`.
* `shiftBits_run` — `n` rounds read the first `n` bits of `queue ++ data` and leave the rest.
-/

namespace Expedition

open Exec Bits

variable {σ : Type}

theorem data_run (data : Word) :
    (if data &&& 1 = 0 then DataLow else DataHigh : Drv σ Unit) =
      update fun w => { w with tdi := decide (data.toNat % 2 = 1) } := by
  have hand : (data &&& 1 = 0) ↔ data.toNat % 2 = 0 := by
    rw [← BitVec.toNat_inj, BitVec.toNat_and]
    simp [Nat.and_one_is_mod]
  rcases Nat.mod_two_eq_zero_or_one data.toNat with h | h
  · rw [if_pos (hand.mpr h)]; simp [DataLow, h]
  · rw [if_neg (by rw [hand]; omega)]; simp [DataHigh, h]

/-- Adding the bit sampled in round `i` to the collected word. -/
theorem collect_bit (b : Bool) (i : Nat) (c : Word) :
    (if b then c + ((1 : Word) <<< i) else c) = c + BitVec.ofNat 32 (2 ^ i * b.toNat) := by
  cases b
  · simp
  · simp only [↓reduceIte, Bool.toNat_true, Nat.mul_one]
    congr 1
    apply BitVec.eq_of_toNat_eq
    simp [BitVec.toNat_shiftLeft, Nat.shiftLeft_eq]

variable [JtagDevice σ]

/-- In controller state `t` the device shifts the register `reg`, written back with `put`: TDO is
its head, and a rising edge drops the head and appends TDI. -/
structure Shifts (t : TapState) (reg : σ → List Bool) (put : List Bool → σ → σ) : Prop where
  stays : TapState.next false t = t
  tdo : ∀ s, JtagDevice.tdo t s = ((reg s).headD false, s)
  rise : ∀ b s, JtagDevice.rise t b s = put ((reg s).tail ++ [b]) s
  fall : ∀ s : σ, JtagDevice.fall t s = s
  reg_put : ∀ r s, reg (put r s) = r
  put_put : ∀ r r' s, put r' (put r s) = put r' s
  put_reg : ∀ s, put (reg s) s = s

/-- The register with the level waiting on TDI behind it. -/
def queue (reg : σ → List Bool) (w : World σ) : List Bool := reg w.dev ++ [w.tdi]

/-- Ready to shift in state `t`: TCK and TMS low, and at least one cell in the register. -/
structure Ready (t : TapState) (reg : σ → List Bool) (w : World σ) : Prop where
  tck : w.tck = false
  tms : w.tms = false
  tap : w.tap = t
  reg : reg w.dev ≠ []

/-- `w'` differs from `w` only in the register, TDI and the log. -/
def SameBut (put : List Bool → σ → σ) (w w' : World σ) : Prop :=
  ∃ r, w' = { w with dev := put r w.dev, tdi := w'.tdi, shiftLog := w'.shiftLog }

section

variable {t : TapState} {reg : σ → List Bool} {put : List Bool → σ → σ} {w : World σ}

theorem headD_append_singleton {l : List Bool} (h : l ≠ []) (b : Bool) :
    (l ++ [b]).headD false = l.headD false := by
  cases l with
  | nil => exact absurd rfl h
  | cons x l => rfl

theorem tail_append_singleton {l : List Bool} (h : l ≠ []) (b : Bool) :
    (l ++ [b]).tail = l.tail ++ [b] := by
  cases l with
  | nil => exact absurd rfl h
  | cons x l => rfl

theorem readTDO_run (hs : Shifts t reg put) (hw : w.tap = t) :
    readTDO w = (.ok ((reg w.dev).headD false), w) := by
  subst hw
  simp [readTDO, hs.tdo]

/-- A clock in the scan state: the head leaves and TDI enters. -/
theorem shiftTick_run (hs : Shifts t reg put) (hw : Ready t reg w) :
    clockTicks 1 w = (.ok (), { w with dev := put (queue reg w).tail w.dev }) := by
  rw [clockTicks_run 1 hw.tck, queue, tail_append_singleton hw.reg]
  obtain ⟨tck, tms, tdi, tap, dev, state, led, console, patience, waits, log⟩ := w
  obtain ⟨rfl, rfl, rfl, -⟩ := hw
  show (_, World.pulse _) = _
  simp only [World.pulse, World.riseTck, World.fallTck, hs.rise]
  rw [hs.stays, hs.fall]

/-- One round of the loop: the head of the queue is read and the data bit appended. -/
theorem shiftLoop_succ (hs : Shifts t reg put) (hw : Ready t reg w) (n i : Nat) (data c : Word) :
    ∃ u, shiftLoop (n + 1) i data c w =
        shiftLoop n (i + 1) (data >>> 1)
          (c + BitVec.ofNat 32 (2 ^ i * ((queue reg w).headD false).toNat)) u ∧
      Ready t reg u ∧ SameBut put w u ∧
      queue reg u = (queue reg w).tail ++ [decide (data.toNat % 2 = 1)] := by
  let v : World σ := { w with shiftLog := w.shiftLog ++ [(w.tap, w.state)] }
  have hv : Ready t reg v := ⟨hw.tck, hw.tms, hw.tap, hw.reg⟩
  have hhead : (queue reg w).headD false = (reg w.dev).headD false :=
    headD_append_singleton hw.reg _
  have hne : (queue reg w).tail ≠ [] := by
    rw [queue, tail_append_singleton hw.reg]
    simp
  refine ⟨{ v with dev := put (queue reg w).tail w.dev, tdi := decide (data.toNat % 2 = 1) },
    ?_, ⟨hw.tck, hw.tms, hw.tap, ?_⟩, ⟨_, rfl⟩, ?_⟩
  · rw [shiftLoop, run_bind_ok (readTDO_run hs hw.tap), collect_bit, hhead,
      run_bind_ok (show logShift w = (.ok (), v) from rfl), run_bind_ok (shiftTick_run hs hv),
      data_run]
    rfl
  · rw [hs.reg_put]; exact hne
  · rw [queue, hs.reg_put]

theorem SameBut.trans (hs : Shifts t reg put) {w₁ w₂ w₃ : World σ} (h₁ : SameBut put w₁ w₂)
    (h₂ : SameBut put w₂ w₃) : SameBut put w₁ w₃ := by
  obtain ⟨r₁, h₁⟩ := h₁
  obtain ⟨r₂, h₂⟩ := h₂
  refine ⟨r₂, ?_⟩
  rw [h₂, h₁]
  simp only [hs.put_put]

theorem SameBut.refl (hs : Shifts t reg put) (w : World σ) : SameBut put w w :=
  ⟨reg w.dev, by rw [hs.put_reg]⟩

theorem shiftLoop_run (hs : Shifts t reg put) (n : Nat) :
    ∀ (i : Nat) (data c : Word) (w : World σ), Ready t reg w →
      ∃ u, shiftLoop n i data c w =
          (.ok (c + BitVec.ofNat 32 (2 ^ i *
            ofBits ((queue reg w ++ toBits n data.toNat).take n))), u) ∧
        Ready t reg u ∧ SameBut put w u ∧
        queue reg u = (queue reg w ++ toBits n data.toNat).drop n := by
  induction n with
  | zero =>
    intro i data c w hw
    refine ⟨w, ?_, hw, SameBut.refl hs w, by simp [toBits]⟩
    simp [shiftLoop, ofBits]
  | succ n ih =>
    intro i data c w hw
    obtain ⟨v, hv, hvr, hvs, hvq⟩ := shiftLoop_succ hs hw n i data c
    obtain ⟨u, hu, hur, hus, huq⟩ := ih (i + 1) (data >>> 1) _ v hvr
    have hshift : (data >>> 1).toNat = data.toNat / 2 := by
      simp [BitVec.toNat_ushiftRight, Nat.shiftRight_eq_div_pow]
    -- the queue is never empty, so its head is the bit taken first
    have hsplit : queue reg w ++ toBits (n + 1) data.toNat =
        (queue reg w).headD false :: (queue reg v ++ toBits n (data >>> 1).toNat) := by
      rw [hvq, toBits, hshift]
      cases hq : queue reg w with
      | nil => simp [queue] at hq
      | cons b q => simp
    refine ⟨u, ?_, hur, hvs.trans hs hus, ?_⟩
    · rw [hv, hu, hsplit, List.take_succ_cons, ofBits, BitVec.add_assoc, ← BitVec.ofNat_add,
        pow_succ]
      congr 5
      ring
    · rw [huq, hsplit, List.drop_succ_cons]

/-- **What `shiftBits` does.**  It reads the first `n` bits of the queue followed by the data, and
leaves the rest as the new queue. -/
theorem shiftBits_run (hs : Shifts t reg put) (hw : Ready t reg w) (data : Word) (n : Nat) :
    ∃ u, shiftBits data n w =
        (.ok (BitVec.ofNat 32 (ofBits ((queue reg w ++ toBits n data.toNat).take n))), u) ∧
      Ready t reg u ∧ SameBut put w u ∧
      queue reg u = (queue reg w ++ toBits n data.toNat).drop n := by
  obtain ⟨u, hu, hur, hus, huq⟩ := shiftLoop_run hs n 0 data 0 w hw
  refine ⟨u, ?_, hur, hus, huq⟩
  rw [shiftBits, run_bind_ok (show clockLow w = (.ok (), w) by
    simp [clockLow, World.setTck_low hw.tck]), hu]
  simp

end

end Expedition
