import Expedition.Power.Rails
import Mathlib.Algebra.Order.Floor.Semiring
import Mathlib.Data.Rat.Floor
import Mathlib.Tactic.Linarith
import Mathlib.Tactic.NormNum

/-!
# The codes the DAC channels hold

`power_chan` of `dac.cpp` down to the bytes it writes to the I2C bus, with voltages as exact rationals.
The DAC takes its code from the two data bytes left-aligned: all of the first, and the high half of
the second.  `power_chan` puts the low four bits of the code in the low half of the second byte, where
the DAC does not look.

* `PowerCall.writes_inRange` — the clamps keep every voltage asked for within 0 V and 3.3 V, so that
  no byte wraps.
* `Chips.run_power_chan` — a channel is left holding the code asked for with its low four bits cleared.
* `Chips.Follows.run` — so the channels follow the board of `Rails`, down to those bits.
* `codes_iff` — a channel is left holding the code itself where those bits are zero, and after every
  `power_chan` of a run only where all of the calls are `power_down`.
-/

namespace Expedition

/-! ## `dac.cpp` -/

/-- `1241 * voltage` as an `unsigned int`. -/
def full_code (voltage : ℚ) : Word := BitVec.ofNat 32 ⌊1241 * voltage⌋₊

/-- `data` of `power_chan`: the channel, MSDB and LSDB. -/
def chan_data (chan : Byte) (voltage : ℚ) : Byte × Byte × Byte :=
  let LSDB : Byte := (full_code voltage % 0x10).setWidth 8
  let MSDB : Byte := (full_code voltage / 0x10).setWidth 8
  (chan, MSDB, LSDB)

/-- The pins, the code of every DAC channel, and what `dac_i2c.write` will return. -/
structure Chips where
  pin : Pin → Bool
  code : Byte × Byte → Nat
  results : List Int

/-- The code a DAC reads off the two data bytes. -/
def decoded (MSDB LSDB : Byte) : Nat := MSDB.toNat * 16 + LSDB.toNat / 16

/-- The DAC at `i2caddr` takes three bytes. -/
def Chips.accept (i2caddr : Byte) (data : Byte × Byte × Byte) (s : Chips) : Chips :=
  { s with code := Function.update s.code (i2caddr, data.1) (decoded data.2.1 data.2.2) }

/-- `while (dac_i2c.write(i2caddr,data,3,false)) { }`, which does not end before a write succeeds. -/
def Chips.send (i2caddr : Byte) (data : Byte × Byte × Byte) (s : Chips) : List Int → Option Chips
  | [] => none
  | result :: results =>
    if result ≠ 0 then Chips.send i2caddr data s results
    else some { s.accept i2caddr data with results := results }

def Write.perform : Write ℚ → Chips → Option Chips
  | pin p level, s => some { s with pin := Function.update s.pin p level }
  | dac chan voltage, s => s.send chan.1 (chan_data chan.2 voltage) s.results

/-- The writes one after the other. -/
def Chips.run : List (Write ℚ) → Chips → Option Chips
  | [], s => some s
  | w :: l, s => (w.perform s).bind (Chips.run l)

/-! ## The bytes -/

theorem decoded_chan_data (chan : Byte) {voltage : ℚ} (h : ⌊1241 * voltage⌋₊ < 4096) :
    decoded (chan_data chan voltage).2.1 (chan_data chan voltage).2.2 = ⌊1241 * voltage⌋₊ / 16 * 16 := by
  have hcode : (full_code voltage).toNat = ⌊1241 * voltage⌋₊ := Nat.mod_eq_of_lt (by omega)
  have hMSDB : (chan_data chan voltage).2.1.toNat = ⌊1241 * voltage⌋₊ / 16 := by
    show (full_code voltage).toNat / 16 % 256 = _
    rw [hcode]
    omega
  have hLSDB : (chan_data chan voltage).2.2.toNat = ⌊1241 * voltage⌋₊ % 16 := by
    show (full_code voltage).toNat % 16 % 256 = _
    rw [hcode]
    omega
  rw [decoded, hMSDB, hLSDB, Nat.div_eq_of_lt (Nat.mod_lt _ (by decide)), Nat.add_zero]

/-- A voltage the supplies are asked for. -/
structure InRange (voltage : ℚ) : Prop where
  nonneg : 0 ≤ voltage
  le : voltage ≤ 33 / 10

theorem InRange.floor_lt {voltage : ℚ} (h : InRange voltage) : ⌊1241 * voltage⌋₊ < 4096 := by
  have hnonneg := h.nonneg
  have hle := h.le
  rw [Nat.floor_lt (by linarith)]
  norm_num
  linarith

/-! ## The clamps -/

def Write.InRange (w : Write ℚ) : Prop := ∀ chan voltage, w = .dac chan voltage → Expedition.InRange voltage

theorem power_chans_inRange {l : List (Rail × ℚ)} (h : ∀ x ∈ l, InRange x.2) :
    ∀ w ∈ power_chans l, w.InRange := by
  intro w hw chan voltage hdac
  subst hdac
  obtain ⟨x, hx, hwx⟩ := List.mem_flatMap.mp hw
  simp only [power_chan, List.mem_cons, List.not_mem_nil, or_false, reduceCtorEq, false_or] at hwx
  rw [(Write.dac.inj hwx).2]
  exact h x hx

theorem pin_inRange (p : Pin) (level : Bool) : (Write.pin p level).InRange := by
  intro chan voltage h
  cases h

theorem inRange_volts {q : ℚ} (h : 0 ≤ q) (h' : q ≤ 33 / 10) : InRange (volts q) := ⟨h, h'⟩

/-- `core_volt` after its clamp. -/
theorem clamped {core_volt : ℚ} (h : 0 ≤ core_volt) :
    0 ≤ (if exceeds core_volt 1 then (CFloat.ofInt 1 : ℚ) else core_volt) ∧
      (if exceeds core_volt 1 then (CFloat.ofInt 1 : ℚ) else core_volt) ≤ 1 := by
  have hone : (CFloat.ofInt 1 : ℚ) = 1 := Int.cast_one
  by_cases hv : exceeds core_volt 1 = true
  · rw [if_pos hv, hone]
    exact ⟨by norm_num, by norm_num⟩
  · rw [if_neg hv]
    refine ⟨h, not_lt.mp fun hlt => hv ?_⟩
    have hlt' : ((1 : Int) : ℚ) < core_volt := by rwa [Int.cast_one]
    exact decide_eq_true hlt'

theorem inRange_of_le_one {voltage : ℚ} (h : 0 ≤ voltage ∧ voltage ≤ 1) : InRange voltage :=
  ⟨h.1, h.2.trans (by norm_num)⟩

/-- A voltage replaced by `q` where it is below `x`. -/
theorem raised {core : ℚ} (hcore : 0 ≤ core ∧ core ≤ 1) {q : ℚ} (hq : 0 ≤ q ∧ q ≤ 1) (x : ℚ) :
    InRange (if below core x then volts q else core) := by
  split
  · exact inRange_of_le_one hq
  · exact inRange_of_le_one hcore

theorem power_core_inRange {core_volt : ℚ} (h : 0 ≤ core_volt) : ∀ w ∈ power_core core_volt, w.InRange := by
  have hcore := clamped h
  refine power_chans_inRange ?_
  generalize (if exceeds core_volt 1 then (CFloat.ofInt 1 : ℚ) else core_volt) = core at hcore
  have hperiph := raised hcore (q := 9 / 10) (by norm_num) (9 / 10)
  have hmem : InRange (if below core (8 / 10) then
      CFloat.narrow (CFloat.add (CFloat.widen core) (CFloat.literal (5 / 100))) else core) := by
    split
    · show InRange (core + 5 / 100)
      exact ⟨by linarith [hcore.1], by linarith [hcore.2]⟩
    · exact inRange_of_le_one hcore
  have hcore' := inRange_of_le_one hcore
  have hlow : InRange (volts (35 / 100)) := inRange_volts (by norm_num) (by norm_num)
  simp only [List.forall_mem_cons, List.not_mem_nil, false_imp_iff, implies_true, and_true]
  exact ⟨hperiph, hcore', hmem, hmem, hperiph, hperiph, hcore', hlow, hperiph⟩

theorem power_up_inRange {core_volt : ℚ} (h : 0 ≤ core_volt) : ∀ w ∈ power_up core_volt, w.InRange := by
  have hcore := clamped h
  refine List.forall_mem_append.mpr ⟨power_chans_inRange ?_,
    List.forall_mem_append.mpr ⟨power_chans_inRange ?_, ?_⟩⟩
  · have hup : InRange (volts (18 / 10)) := inRange_volts (by norm_num) (by norm_num)
    simp only [List.forall_mem_cons, List.not_mem_nil, false_imp_iff, implies_true, and_true]
    exact ⟨hup, hup⟩
  · generalize (if exceeds core_volt 1 then (CFloat.ofInt 1 : ℚ) else core_volt) = core at hcore
    have hperiph := raised hcore (q := 95 / 100) (by norm_num) (95 / 100)
    have hcore' := inRange_of_le_one hcore
    have hone : InRange (volts 1) := inRange_volts (by norm_num) (by norm_num)
    have hpad : InRange (volts (33 / 10)) := inRange_volts (by norm_num) (by norm_num)
    have hbias : InRange (volts (75 / 100)) := inRange_volts (by norm_num) (by norm_num)
    have hlow : InRange (volts (35 / 100)) := inRange_volts (by norm_num) (by norm_num)
    simp only [List.forall_mem_cons, List.not_mem_nil, false_imp_iff, implies_true, and_true]
    exact ⟨hpad, hpad, hone, hcore', hperiph, hperiph, hperiph, hone, hbias, hcore', hlow, hone⟩
  · intro w hw
    rw [List.mem_singleton.mp hw]
    exact pin_inRange _ _

/-- What `power_down` asks for is 0 V. -/
theorem power_down_zero {chan : Byte × Byte} {voltage : ℚ} (h : Write.dac chan voltage ∈ power_down) :
    voltage = 0 := by
  have hpins : Write.dac chan voltage ∉ zeroed.map fun p => (Write.pin p false : Write ℚ) := by
    simp
  have hchans : ∀ rs, Write.dac chan voltage ∈ (zero_chans rs : List (Write ℚ)) → voltage = 0 := by
    intro rs hmem
    obtain ⟨x, hx, hwx⟩ := List.mem_flatMap.mp hmem
    simp only [power_chan, List.mem_cons, List.not_mem_nil, or_false, reduceCtorEq, false_or] at hwx
    rw [(Write.dac.inj hwx).2, (mem_zero_chans hx).2]
    exact Int.cast_zero
  simp only [power_down, power_down_begin, power_down_end, List.mem_append] at h
  rcases h with (h | h) | h | h
  · exact absurd h hpins
  · exact hchans _ h
  · exact hchans _ h
  · simp at h

theorem power_down_inRange : ∀ w ∈ power_down, w.InRange := by
  rintro w hw chan voltage rfl
  rw [power_down_zero hw]
  exact ⟨le_refl 0, by norm_num⟩

/-- The argument of a call is not negative. -/
def PowerCall.NonNeg : PowerCall ℚ → Prop
  | up core_volt => 0 ≤ core_volt
  | core core_volt => 0 ≤ core_volt
  | down => True

/-- The clamps keep every voltage asked for within the supply. -/
theorem PowerCall.writes_inRange {c : PowerCall ℚ} (hc : c.NonNeg) : ∀ w ∈ c.writes, w.InRange := by
  cases c with
  | up core_volt => exact power_up_inRange hc
  | core core_volt => exact power_core_inRange hc
  | down => exact power_down_inRange

/-! ## The writes -/

def Write.isDac {F : Type} : Write F → Bool
  | pin _ _ => false
  | dac _ _ => true

namespace Chips

/-- As soon as a write succeeds, the loop ends with the data taken. -/
theorem send_returns (i2caddr : Byte) (data : Byte × Byte × Byte) (s : Chips) (results : List Int)
    (h : 0 < results.count 0) : ∃ rest, s.send i2caddr data results =
      some { s.accept i2caddr data with results := rest } ∧ rest.count 0 + 1 = results.count 0 := by
  induction results with
  | nil => exact absurd h (Nat.lt_irrefl 0)
  | cons result results ih =>
    rw [send]
    by_cases hresult : result = 0
    · subst hresult
      exact ⟨results, if_neg (not_not_intro rfl), List.count_cons_self.symm⟩
    · rw [List.count_cons_of_ne hresult] at h ⊢
      rw [if_pos hresult]
      exact ih h

/-- Writes of which enough succeed are all made. -/
theorem run_returns (l : List (Write ℚ)) : ∀ s : Chips, l.countP Write.isDac ≤ s.results.count 0 →
    ∃ s', run l s = some s' ∧ s'.results.count 0 + l.countP Write.isDac = s.results.count 0 := by
  induction l with
  | nil => exact fun s _ => ⟨s, rfl, rfl⟩
  | cons w l ih =>
    intro s hs
    cases w with
    | pin p level =>
      rw [List.countP_cons_of_neg Bool.false_ne_true] at hs ⊢
      exact ih _ hs
    | dac chan voltage =>
      rw [List.countP_cons_of_pos rfl] at hs ⊢
      obtain ⟨rest, hsend, hrest⟩ := send_returns chan.1 (chan_data chan.2 voltage) s s.results (by omega)
      obtain ⟨s', hrun, hs'⟩ := ih { s.accept chan.1 (chan_data chan.2 voltage) with results := rest }
        (show l.countP Write.isDac ≤ rest.count 0 by omega)
      refine ⟨s', ?_, ?_⟩
      · rw [run, Write.perform, hsend]
        exact hrun
      · show s'.results.count 0 + _ = _
        have : s'.results.count 0 + l.countP Write.isDac = rest.count 0 := hs'
        omega

/-- Whatever the results, a write that ends has been taken. -/
theorem send_some {i2caddr : Byte} {data : Byte × Byte × Byte} {s s' : Chips} {results : List Int}
    (h : s.send i2caddr data results = some s') :
    s'.pin = s.pin ∧ s'.code = (s.accept i2caddr data).code := by
  induction results with
  | nil => cases h
  | cons result results ih =>
    rw [send] at h
    split at h
    · exact ih h
    · cases h
      exact ⟨rfl, rfl⟩

/-- The pins are the board's, and every channel holds the code of its voltage without the low bits. -/
structure Follows (s : Chips) (b : Board ℚ) : Prop where
  pin : s.pin = b.pin
  code : ∀ chan, s.code chan = ⌊1241 * b.dac chan⌋₊ / 16 * 16

theorem Follows.perform {w : Write ℚ} (hw : w.InRange) {s s' : Chips} {b : Board ℚ} (hs : s.Follows b)
    (h : w.perform s = some s') : s'.Follows (w.apply b) := by
  cases w with
  | pin p level =>
    cases h
    exact ⟨congrArg (Function.update · p level) hs.pin, hs.code⟩
  | dac chan voltage =>
    obtain ⟨hpin, hcode⟩ := send_some h
    refine ⟨hpin.trans hs.pin, fun chan' => ?_⟩
    rw [hcode]
    show Function.update s.code chan _ chan' = ⌊1241 * Function.update b.dac chan voltage chan'⌋₊ / 16 * 16
    by_cases hchan : chan' = chan
    · subst hchan
      rw [Function.update_self, Function.update_self]
      exact decoded_chan_data chan'.2 (hw chan' voltage rfl).floor_lt
    · rw [Function.update_of_ne hchan, Function.update_of_ne hchan]
      exact hs.code chan'

/-- The codes follow the voltages asked for, through every sequence of writes. -/
theorem Follows.run {l : List (Write ℚ)} (hl : ∀ w ∈ l, w.InRange) {s s' : Chips} {b : Board ℚ}
    (hs : s.Follows b) (h : run l s = some s') : s'.Follows (Board.run l b) := by
  induction l generalizing s b with
  | nil =>
    cases h
    exact hs
  | cons w l ih =>
    obtain ⟨s₁, hw, hrest⟩ := Option.bind_eq_some_iff.mp h
    exact ih (fun w' hw' => hl w' (List.mem_cons_of_mem w hw'))
      (hs.perform (hl w List.mem_cons_self) hw) hrest

/-- `power_chan` changes the code of its channel only, to the code asked for without its low bits. -/
theorem run_power_chan (r : Rail) {voltage : ℚ} (hv : InRange voltage) {s : Chips}
    (hs : 0 < s.results.count 0) : ∃ s', run (power_chan r voltage) s = some s' ∧
      s'.code = Function.update s.code r.chan (⌊1241 * voltage⌋₊ / 16 * 16) := by
  let data := chan_data r.chan.2 voltage
  let busy : Chips := { s with pin := Function.update s.pin .power_error_indicator true }
  obtain ⟨rest, hsend, -⟩ := send_returns r.chan.1 data busy s.results hs
  let sent : Chips := { busy.accept r.chan.1 data with results := rest }
  refine ⟨{ sent with pin := Function.update sent.pin .power_error_indicator false }, ?_, ?_⟩
  · show (busy.send r.chan.1 data s.results).bind (run [.pin .power_error_indicator false]) = _
    rw [hsend]
    rfl
  · show Function.update s.code r.chan (decoded data.2.1 data.2.2) = _
    rw [decoded_chan_data r.chan.2 hv.floor_lt]

end Chips

/-! ## Every run -/

/-- After the call the channel holds the code asked for, and no other channel's code is changed. -/
structure Chips.Holds (s s' : Chips) (r : Rail) (voltage : ℚ) : Prop where
  held : (s'.code r.chan : Int) = ⌊1241 * voltage⌋
  frame : ∀ chan, chan ≠ r.chan → s'.code chan = s.code chan

/-- Every `power_chan` among the writes is reached and returns, and `P` holds of the states before and
after it. -/
def AtEach (P : Rail → ℚ → Chips → Chips → Prop) (l : List (Write ℚ)) (start : Chips) : Prop :=
  ∀ before r voltage after, l = before ++ power_chan r voltage ++ after →
    ∃ s s', Chips.run before start = some s ∧ Chips.run (power_chan r voltage) s = some s' ∧
      P r voltage s s'

theorem AtEach.mono {P Q : Rail → ℚ → Chips → Chips → Prop} {l : List (Write ℚ)} {start : Chips}
    (h : AtEach P l start)
    (hPQ : ∀ r voltage s s', Write.dac r.chan voltage ∈ l → P r voltage s s' → Q r voltage s s') :
    AtEach Q l start := by
  intro before r voltage after hl
  obtain ⟨s, s', hs, hs', hP⟩ := h before r voltage after hl
  refine ⟨s, s', hs, hs', hPQ r voltage s s' ?_ hP⟩
  rw [hl]
  simp [power_chan]

/-- What `power_chan` does, at each place of a run. -/
theorem atEach_update {l : List (Write ℚ)} (hl : ∀ w ∈ l, w.InRange) {start : Chips}
    (hstart : l.countP Write.isDac ≤ start.results.count 0) :
    AtEach (fun r voltage s s' =>
      s'.code = Function.update s.code r.chan (⌊1241 * voltage⌋₊ / 16 * 16)) l start := by
  rintro before r voltage after rfl
  have hcount : (before ++ power_chan r voltage ++ after).countP Write.isDac =
      before.countP Write.isDac + 1 + after.countP Write.isDac := by
    rw [List.countP_append, List.countP_append]
    rfl
  obtain ⟨s, hs, hleft⟩ := Chips.run_returns before start (by omega)
  have hv : InRange voltage := hl (.dac r.chan voltage) (by simp [power_chan]) _ _ rfl
  obtain ⟨s', hs', hcode⟩ := Chips.run_power_chan r hv (s := s) (by omega)
  exact ⟨s, s', hs, hs', hcode⟩

/-- The code asked for is the one held where its low four bits are zero. -/
theorem Chips.holds_iff {s s' : Chips} {r : Rail} {voltage : ℚ} (hv : 0 ≤ voltage)
    (h : s'.code = Function.update s.code r.chan (⌊1241 * voltage⌋₊ / 16 * 16)) :
    s.Holds s' r voltage ↔ (16 : Int) ∣ ⌊1241 * voltage⌋ := by
  have hheld : s'.code r.chan = ⌊1241 * voltage⌋₊ / 16 * 16 := by rw [h, Function.update_self]
  have hfloor : (⌊1241 * voltage⌋₊ : Int) = ⌊1241 * voltage⌋ := Int.natCast_floor_eq_floor (by linarith)
  constructor
  · intro hs
    have := hs.held
    omega
  · intro hdvd
    refine ⟨by omega, fun chan hchan => ?_⟩
    rw [h, Function.update_of_ne hchan]

theorem infix_flatMap {α β : Type} {f : α → List β} {l : List α} {x : α} (h : x ∈ l) :
    f x <:+: l.flatMap f := by
  obtain ⟨a, b, rfl⟩ := List.append_of_mem h
  exact ⟨a.flatMap f, b.flatMap f, by simp⟩

theorem infix_chans {l : List (Rail × ℚ)} {x : Rail × ℚ} (h : x ∈ l) :
    power_chan x.1 x.2 <:+: power_chans l := infix_flatMap (f := fun x => power_chan x.1 x.2) h

/-- Every call of `power_up` and of `power_core` asks for 0.35 V. -/
theorem PowerCall.asks_low {c : PowerCall ℚ} (hc : c ≠ .down) :
    power_chan .SENSORLOWVDD (volts (35 / 100)) <:+: c.writes := by
  cases c with
  | up core_volt =>
    refine (infix_chans (x := (Rail.SENSORLOWVDD, volts (35 / 100))) ?_).trans
      ((List.prefix_append _ _).isInfix.trans (List.suffix_append _ _).isInfix)
    simp
  | core core_volt =>
    refine infix_chans (x := (Rail.SENSORLOWVDD, volts (35 / 100))) ?_
    simp
  | down => exact absurd rfl hc

theorem floor_low : ⌊1241 * (volts (35 / 100) : ℚ)⌋ = 434 := by
  show ⌊(1241 * (35 / 100) : ℚ)⌋ = 434
  rw [Int.floor_eq_iff]
  norm_num

/-- **When a channel holds the code asked for.**  In every run of `power_up`, `power_core` and
`power_down` calls, on every pattern of failed writes: after each `power_chan` its channel holds the
code asked for, and the others are unchanged, exactly where the low four bits of that code are zero;
so after each of them only where every call is `power_down`. -/
theorem codes_iff (calls : List (PowerCall ℚ)) (hcalls : ∀ c ∈ calls, c.NonNeg) (start : Chips)
    (hstart : (calls.flatMap PowerCall.writes).countP Write.isDac ≤ start.results.count 0) :
    AtEach (fun r voltage s s' => s.Holds s' r voltage ↔ (16 : Int) ∣ ⌊1241 * voltage⌋)
      (calls.flatMap PowerCall.writes) start ∧
    (AtEach (fun r voltage s s' => s.Holds s' r voltage) (calls.flatMap PowerCall.writes) start ↔
      ∀ c ∈ calls, c = .down) := by
  have hrange : ∀ w ∈ calls.flatMap PowerCall.writes, w.InRange := by
    intro w hw
    obtain ⟨c, hc, hwc⟩ := List.mem_flatMap.mp hw
    exact PowerCall.writes_inRange (hcalls c hc) w hwc
  have heach : AtEach (fun r voltage s s' => s.Holds s' r voltage ↔ (16 : Int) ∣ ⌊1241 * voltage⌋)
      (calls.flatMap PowerCall.writes) start :=
    (atEach_update hrange hstart).mono fun r voltage s s' hmem =>
      Chips.holds_iff (hrange _ hmem _ _ rfl).nonneg
  refine ⟨heach, fun hheld c hc => ?_, fun hdown => heach.mono fun r voltage s s' hmem hiff => ?_⟩
  · by_contra hne
    obtain ⟨before, after, hl⟩ := (PowerCall.asks_low hne).trans (infix_flatMap hc)
    obtain ⟨s, s', hs, hs', hiff⟩ := heach before _ _ after hl.symm
    obtain ⟨t, t', ht, ht', hholds⟩ := hheld before _ _ after hl.symm
    -- the two speak of the same call
    obtain rfl : s = t := Option.some.inj (hs.symm.trans ht)
    obtain rfl : s' = t' := Option.some.inj (hs'.symm.trans ht')
    have hdvd := hiff.mp hholds
    rw [floor_low] at hdvd
    omega
  · obtain ⟨c, hc, hwc⟩ := List.mem_flatMap.mp hmem
    rw [hdown c hc] at hwc
    rw [hiff, power_down_zero hwc]
    simp

/-- A board without power whose I2C writes fail now and then. -/
def Chips.off : Chips := ⟨fun _ => false, fun _ => 0, (List.replicate 28 [1, 0, -1, 0]).flatten⟩

/-- `power_down`, and `power_down` after `power_up`. -/
theorem codes_iff_off :
    AtEach (fun r voltage s s' => s.Holds s' r voltage) ([PowerCall.down].flatMap PowerCall.writes) .off ∧
    ¬ AtEach (fun r voltage s s' => s.Holds s' r voltage)
      ([PowerCall.up 1, .down].flatMap PowerCall.writes) .off := by
  refine ⟨(codes_iff [.down] ?_ .off ?_).2.mpr ?_, fun h => ?_⟩
  · simp [PowerCall.NonNeg]
  · decide
  · simp
  · have := (codes_iff [.up 1, .down] (by simp [PowerCall.NonNeg]) .off (by decide)).2.mp h
    simp at this

/-- `power_up(1)` asks for 1.8 V first, code 2233, and the channel holds 2224. -/
theorem power_up_code :
    ⌊1241 * (18 / 10 : ℚ)⌋ = 2233 ∧
    (∃ s', Chips.run (power_chan .ADVDD2 (18 / 10)) .off = some s' ∧ s'.code Rail.ADVDD2.chan = 2224) ∧
    ¬ AtEach (fun r voltage s s' => s.Holds s' r voltage) (PowerCall.up 1).writes .off := by
  have hfloor : ⌊1241 * (18 / 10 : ℚ)⌋ = 2233 := by
    rw [Int.floor_eq_iff]
    norm_num
  have hcode : ⌊1241 * (18 / 10 : ℚ)⌋₊ = 2233 := by
    rw [Nat.floor_eq_iff (by norm_num)]
    norm_num
  have hv : InRange (18 / 10) := ⟨by norm_num, by norm_num⟩
  obtain ⟨s', hs', hupdate⟩ := Chips.run_power_chan .ADVDD2 hv (s := .off) (by decide)
  rw [hcode] at hupdate
  have hheld : s'.code Rail.ADVDD2.chan = 2224 := by rw [hupdate, Function.update_self]
  refine ⟨hfloor, ⟨s', hs', hheld⟩, fun h => ?_⟩
  obtain ⟨s, t, hs, ht, hholds⟩ := h [] .ADVDD2 (18 / 10) _ rfl
  obtain rfl : Chips.off = s := Option.some.inj hs
  obtain rfl : s' = t := Option.some.inj (hs'.symm.trans ht)
  have := hholds.held
  rw [hfloor, hheld] at this
  omega

end Expedition
