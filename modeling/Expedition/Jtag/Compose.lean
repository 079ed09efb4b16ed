import Expedition.Jtag.Frame

/-!
# Two calls of `shiftBits` are one

A call of `shiftBits` is a series of rounds, each of which samples TDO, pulses TCK with the TDI level
the round before has left, and then sets TDI to a bit of the data.  So what a call does is a
function of the bits it is given, for any device at all.

* `shiftBits_eq` — the world and the value after a call, as functions of the bits.
* `Traced` — a device that records the level of TDI at every rising edge of TCK.
* `shiftBits_composes` — two calls are the single call with the data put together.
-/

namespace Expedition

open Exec Bits

variable {σ : Type} [JtagDevice σ]

/-! ## A call as a function of its bits -/

namespace World

/-- The level of TDO. -/
def sample (w : World σ) : Bool := (JtagDevice.tdo w.tap w.dev).1

/-- TDO is read and the clock logged. -/
def sampled (w : World σ) : World σ :=
  { w with dev := (JtagDevice.tdo w.tap w.dev).2, shiftLog := w.shiftLog ++ [(w.tap, w.state)] }

/-- `clockTicks(1)`. -/
def tick (w : World σ) : World σ := (((w.setTck false).setTck false).setTck true).setTck false

/-- One round of `shiftBits` that sends the bit `b`. -/
def shifted (w : World σ) (b : Bool) : World σ := { w.sampled.tick with tdi := b }

/-- The rounds that send the given bits. -/
def shiftedBy (w : World σ) (bits : List Bool) : World σ := bits.foldl shifted w

/-- What they sample. -/
def samples : List Bool → World σ → List Bool
  | [], _ => []
  | b :: bits, w => w.sample :: samples bits (w.shifted b)

@[simp] theorem setTck_tck (level : Bool) (w : World σ) : (w.setTck level).tck = level := by
  unfold setTck
  split
  · assumption
  · cases level <;> rfl

@[simp] theorem shifted_tck (w : World σ) (b : Bool) : (w.shifted b).tck = false := setTck_tck ..

@[simp] theorem length_samples (bits : List Bool) (w : World σ) : (samples bits w).length = bits.length := by
  induction bits generalizing w with
  | nil => rfl
  | cons b bits ih => simp [samples, ih]

theorem samples_append (a b : List Bool) (w : World σ) :
    samples (a ++ b) w = samples a w ++ samples b (w.shiftedBy a) := by
  induction a generalizing w with
  | nil => rfl
  | cons x a ih => simp [samples, ih, shiftedBy]

theorem shiftedBy_append (a b : List Bool) (w : World σ) :
    w.shiftedBy (a ++ b) = (w.shiftedBy a).shiftedBy b := List.foldl_append ..

/-- After the rounds TCK is low. -/
theorem shiftedBy_tck (bits : List Bool) {w : World σ} (h : w.tck = false) :
    (w.shiftedBy bits).tck = false := by
  induction bits generalizing w with
  | nil => exact h
  | cons b bits ih => exact ih (shifted_tck w b)

end World

theorem shiftLoop_round (n i : Nat) (data c : Word) (w : World σ) :
    shiftLoop (n + 1) i data c w =
      shiftLoop n (i + 1) (data >>> 1) (c + BitVec.ofNat 32 (2 ^ i * w.sample.toNat))
        (w.shifted (decide (data.toNat % 2 = 1))) := by
  have htick : ∀ v : World σ, clockTicks 1 v = (.ok (), v.tick) := fun _ => rfl
  have hread : readTDO w = (.ok w.sample, { w with dev := (JtagDevice.tdo w.tap w.dev).2 }) := rfl
  rw [shiftLoop, run_bind_ok hread, collect_bit,
    run_bind_ok (show logShift _ = (.ok (), w.sampled) from rfl), run_bind_ok (htick _), data_run]
  rfl

theorem shiftLoop_eq (n : Nat) : ∀ (i : Nat) (data c : Word) (w : World σ),
    shiftLoop n i data c w =
      (.ok (c + BitVec.ofNat 32 (2 ^ i * ofBits (w.samples (toBits n data.toNat)))),
        w.shiftedBy (toBits n data.toNat)) := by
  induction n with
  | zero =>
    intro i data c w
    simp [shiftLoop, toBits, World.samples, World.shiftedBy, ofBits]
  | succ n ih =>
    intro i data c w
    have hshift : (data >>> 1).toNat = data.toNat / 2 := by
      simp [BitVec.toNat_ushiftRight, Nat.shiftRight_eq_div_pow]
    have hsum : ∀ a b : Nat, 2 ^ i * a + 2 ^ (i + 1) * b = 2 ^ i * (a + 2 * b) := by
      intro a b
      rw [pow_succ]
      ring
    rw [shiftLoop_round, ih, hshift, toBits, World.samples, ofBits, BitVec.add_assoc,
      ← BitVec.ofNat_add, hsum]
    rfl

/-- **What a call of `shiftBits` does, on any device**: `clockLow()`, and a round for each of the low
bits of the data. -/
theorem shiftBits_eq (data : Word) (n : Nat) (w : World σ) :
    shiftBits data n w =
      (.ok (BitVec.ofNat 32 (ofBits ((w.setTck false).samples (toBits n data.toNat)))),
        (w.setTck false).shiftedBy (toBits n data.toNat)) := by
  have hlow : clockLow w = (.ok (), w.setTck false) := rfl
  rw [shiftBits, run_bind_ok hlow, shiftLoop_eq]
  simp

/-! ## Two calls -/

/-- The data of two calls put together: the low bits of the first, and the second above them. -/
def joined (d₁ d₂ : Word) (n₁ : Nat) : Word := BitVec.ofNat 32 (d₁.toNat % 2 ^ n₁ + d₂.toNat * 2 ^ n₁)

theorem toBits_joined (d₁ d₂ : Word) {n₁ n₂ : Nat} (hn : n₁ + n₂ ≤ 32) :
    toBits (n₁ + n₂) (joined d₁ d₂ n₁).toNat = toBits n₁ d₁.toNat ++ toBits n₂ d₂.toNat := by
  have hpow : 0 < 2 ^ n₁ := Nat.two_pow_pos n₁
  have hfits : 2 ^ (n₁ + n₂) ∣ 2 ^ 32 := Nat.pow_dvd_pow 2 hn
  have hlow : (d₁.toNat % 2 ^ n₁ + d₂.toNat * 2 ^ n₁) % 2 ^ n₁ = d₁.toNat % 2 ^ n₁ := by
    rw [Nat.add_mul_mod_self_right, Nat.mod_mod]
  have hhigh : (d₁.toNat % 2 ^ n₁ + d₂.toNat * 2 ^ n₁) / 2 ^ n₁ = d₂.toNat := by
    rw [Nat.add_mul_div_right _ _ hpow, Nat.div_eq_of_lt (Nat.mod_lt _ hpow), Nat.zero_add]
  rw [joined, BitVec.toNat_ofNat, ← toBits_mod, Nat.mod_mod_of_dvd _ hfits, toBits_mod, toBits_add, hhigh,
    ← toBits_mod n₁ (d₁.toNat % 2 ^ n₁ + d₂.toNat * 2 ^ n₁), hlow, toBits_mod]

/-- On any device two calls do what the single call with the data put together does, and its value is
theirs put together. -/
theorem shiftBits_join (w : World σ) (d₁ d₂ : Word) {n₁ n₂ : Nat} (hn : n₁ + n₂ ≤ 32) :
    ∃ r₁ r₂ u v, shiftBits d₁ n₁ w = (.ok r₁, u) ∧ shiftBits d₂ n₂ u = (.ok r₂, v) ∧
      shiftBits (joined d₁ d₂ n₁) (n₁ + n₂) w = (.ok (r₁ + r₂ * BitVec.ofNat 32 (2 ^ n₁)), v) := by
  have hlow := World.shiftedBy_tck (toBits n₁ d₁.toNat) (World.setTck_tck false w)
  refine ⟨_, _, _, _, shiftBits_eq d₁ n₁ w, shiftBits_eq d₂ n₂ _, ?_⟩
  rw [shiftBits_eq, toBits_joined d₁ d₂ hn, World.samples_append, World.shiftedBy_append,
    World.setTck_low hlow, ofBits_append, World.length_samples, length_toBits, BitVec.ofNat_add,
    BitVec.ofNat_mul, BitVec.mul_comm]

/-! ## The levels of TDI at the clock -/

/-- A device with a record of the level of TDI at every rising edge of TCK, oldest first. -/
structure Traced (σ : Type) where
  dev : σ
  edges : List Bool

instance : JtagDevice (Traced σ) where
  tdo t s := ((JtagDevice.tdo t s.dev).1, { s with dev := (JtagDevice.tdo t s.dev).2 })
  rise t b s := ⟨JtagDevice.rise t b s.dev, s.edges ++ [b]⟩
  fall t s := { s with dev := JtagDevice.fall t s.dev }

/-- The same world without the record. -/
def World.forget (w : World (Traced σ)) : World σ :=
  ⟨w.tck, w.tms, w.tdi, w.tap, w.dev.dev, w.state, w.waitIndicator, w.console, w.patience, w.waits,
    w.shiftLog⟩

theorem forget_setTck (level : Bool) (w : World (Traced σ)) :
    (w.setTck level).forget = w.forget.setTck level := by
  unfold World.setTck
  show (if w.tck = level then w else _).forget = if w.tck = level then _ else _
  split
  · rfl
  · cases level <;> rfl

theorem forget_shifted (w : World (Traced σ)) (b : Bool) : (w.shifted b).forget = w.forget.shifted b := by
  have htick : w.sampled.tick.forget = w.forget.sampled.tick := by
    unfold World.tick
    simp only [forget_setTck]
    rfl
  show { w.sampled.tick.forget with tdi := b } = _
  rw [htick]
  rfl

/-- The record changes nothing that the driver sees. -/
theorem forget_samples (bits : List Bool) (w : World (Traced σ)) :
    w.samples bits = w.forget.samples bits := by
  induction bits generalizing w with
  | nil => rfl
  | cons b bits ih =>
    rw [World.samples, World.samples, ih, forget_shifted]
    rfl

variable {t : TapState} {reg : σ → List Bool} {put : List Bool → σ → σ}

/-- `clockLow()` leaves the register alone. -/
theorem forget_clockLow_dev (hs : Shifts t reg put) {w : World (Traced σ)} (htap : w.tap = t) :
    (w.setTck false).forget.dev = w.dev.dev := by
  unfold World.setTck
  split
  · rfl
  · show JtagDevice.fall w.tap w.dev.dev = _
    rw [htap, hs.fall]

/-- Where the register is long enough, a call returns the bits it held. -/
theorem shiftBits_value (hs : Shifts t reg put) {w : World (Traced σ)} (htms : w.tms = false)
    (htap : w.tap = t) (data : Word) {n : Nat} (hn : n ≤ 32) (hlen : n ≤ (reg w.dev.dev).length) {r : Word}
    {u : World (Traced σ)} (h : shiftBits data n w = (.ok r, u)) :
    r.toNat = ofBits ((reg w.dev.dev).take n) := by
  let v := (w.setTck false).forget
  have hdev : v.dev = w.dev.dev := forget_clockLow_dev hs htap
  have htck : v.tck = false := World.setTck_tck false w
  have hpins : v.tms = false ∧ v.tap = t := by
    rw [← htms, ← htap]
    show (w.setTck false).tms = _ ∧ (w.setTck false).tap = _
    unfold World.setTck
    split
    · exact ⟨rfl, rfl⟩
    · exact ⟨rfl, rfl⟩
  have hvalue : (shiftBits data n v).1 = .ok r := by
    rw [shiftBits_eq, forget_samples] at h
    rw [shiftBits_eq, World.setTck_low htck]
    exact congrArg Prod.fst h
  cases n with
  | zero =>
    rw [shiftBits_eq] at hvalue
    rw [← Except.ok.inj hvalue]
    rfl
  | succ n =>
    have hne : reg v.dev ≠ [] := by
      intro h0
      rw [← hdev, h0] at hlen
      exact absurd hlen (Nat.not_succ_le_zero n)
    obtain ⟨x, hx, -⟩ := shiftBits_run hs ⟨htck, hpins.1, hpins.2, hne⟩ data (n + 1)
    rw [hx] at hvalue
    have htake : (queue reg v ++ toBits (n + 1) data.toNat).take (n + 1) =
        (reg w.dev.dev).take (n + 1) := by
      rw [queue, List.append_assoc, hdev]
      exact List.take_append_of_le_length hlen
    rw [htake] at hvalue
    rw [← Except.ok.inj hvalue, BitVec.toNat_ofNat]
    refine Nat.mod_eq_of_lt (Nat.lt_of_lt_of_le (ofBits_lt _) (Nat.pow_le_pow_right (by decide) ?_))
    rw [List.length_take]
    omega

/-- **`shiftBits` composes.**  On every device, in every state of it, for every level of TDI and all
data: two calls of `n₁` and `n₂` bits, 32 together at most, leave the world as the single call with
the data put together does, the levels of TDI at the rising edges of TCK, its level at the end and
the device included; and the value of the single call is those of the two put together.  Where a
register of at least `n₁ + n₂` cells is in the scan path, that value is its low cells. -/
theorem shiftBits_composes (w : World (Traced σ)) (d₁ d₂ : Word) (n₁ n₂ : Nat) (hn : n₁ + n₂ ≤ 32) :
    ∃ r₁ r₂ r u v, shiftBits d₁ n₁ w = (.ok r₁, u) ∧ shiftBits d₂ n₂ u = (.ok r₂, v) ∧
      shiftBits (joined d₁ d₂ n₁) (n₁ + n₂) w = (.ok r, v) ∧
      r = r₁ + r₂ * BitVec.ofNat 32 (2 ^ n₁) ∧
      ∀ (t : TapState) (reg : σ → List Bool) (put : List Bool → σ → σ), Shifts t reg put →
        w.tms = false → w.tap = t → n₁ + n₂ ≤ (reg w.dev.dev).length →
        r.toNat = ofBits ((reg w.dev.dev).take (n₁ + n₂)) := by
  obtain ⟨r₁, r₂, u, v, h₁, h₂, h⟩ := shiftBits_join w d₁ d₂ hn
  refine ⟨r₁, r₂, _, u, v, h₁, h₂, h, rfl, ?_⟩
  intro t reg put hs htms htap hlen
  exact shiftBits_value hs htms htap _ hn hlen h

/-- A register of five cells in Shift-DR, with TDI high. -/
def fiveCells : World (Traced FrameTap) :=
  { tck := false, tms := false, tdi := true, tap := .shiftDR
    dev := ⟨⟨[], [], [true, true, false, true, false], 0, [], fun _ => 0, []⟩, []⟩
    state := 'd', waitIndicator := false, console := [], patience := 1, waits := 0, shiftLog := [] }

/-- One bit and two bits, as `shiftData` begins: the three low cells are read. -/
theorem shiftBits_composes_three :
    ∃ r₁ r₂ r u v, shiftBits 1 1 fiveCells = (.ok r₁, u) ∧ shiftBits 3 2 u = (.ok r₂, v) ∧
      shiftBits (joined 1 3 1) 3 fiveCells = (.ok r, v) ∧ r = r₁ + r₂ * BitVec.ofNat 32 (2 ^ 1) ∧
      r.toNat = 3 := by
  obtain ⟨r₁, r₂, r, u, v, h₁, h₂, h, hr, hlow⟩ := shiftBits_composes fiveCells 1 3 1 2 (by decide)
  refine ⟨r₁, r₂, r, u, v, h₁, h₂, h, hr, ?_⟩
  exact hlow _ _ _ FrameTap.dataPath.shifts rfl rfl (by decide)

end Expedition
