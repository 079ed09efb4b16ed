import Expedition.Power.Channels

/-!
# The order of the supplies at the DACs

The rule of `Rails` for the codes that the DAC channels hold, whichever writes fail on the I2C bus.

* `Chips.Rule` — both 1.8 V channels hold the code of 1.8 V whenever a 3.3 V one is not at zero.
* `crew` — threads that make the writes of their calls, one try of one write at a time.
* `codes_in_order` — **the rule holds at every point of every sequence of calls, and of any number of
  `power_core` and `power_down` calls at once.**
-/

namespace Expedition

/-- The 1.8 V channels hold the code of 1.8 V, but for its low bits, whenever a 3.3 V one is not at zero. -/
def Chips.Rule (s : Chips) : Prop :=
  s.code Rail.ADVDD.chan ≠ 0 ∨ s.code Rail.DVDD.chan ≠ 0 →
    s.code Rail.ADVDD2.chan = 2224 ∧ s.code Rail.DVDD2.chan = 2224

theorem code_of_18 : ⌊1241 * (volts (18 / 10) : ℚ)⌋₊ / 16 * 16 = 2224 := by
  have hfloor : ⌊1241 * (volts (18 / 10) : ℚ)⌋₊ = 2233 := by
    show ⌊(1241 * (18 / 10) : ℚ)⌋₊ = 2233
    rw [Nat.floor_eq_iff (by norm_num)]
    norm_num
  rw [hfloor]

/-- The channels keep the rule where the board they follow does. -/
theorem Chips.Follows.rule {s : Chips} {b : Board ℚ} (hs : s.Follows b) (hb : b.Rule) : s.Rule := by
  have hup : ∀ r, s.code (Rail.chan r) ≠ 0 → b.rail r ≠ CFloat.ofInt 0 := by
    intro r hcode hzero
    have hdac : b.dac r.chan = 0 := hzero.trans Int.cast_zero
    rw [hs.code, hdac] at hcode
    simp at hcode
  intro h
  obtain ⟨hadvdd2, hdvdd2⟩ := hb (h.imp (hup .ADVDD) (hup .DVDD))
  rw [hs.code, hs.code, show b.dac Rail.ADVDD2.chan = volts (18 / 10) from hadvdd2,
    show b.dac Rail.DVDD2.chan = volts (18 / 10) from hdvdd2]
  exact ⟨code_of_18, code_of_18⟩

/-! ## Threads at the bus -/

/-- The DACs, and the writes still to make of each thread. -/
structure Crew (ι : Type) where
  chips : Chips
  todo : ι → List (Write ℚ)

/-- Threads `ι` that each run a sequence of `power_core` and `power_down` calls, from `chips`.  An action is
the next try of a thread and the result of `dac_i2c.write` in it; a write that fails is tried again. -/
def crew (ι : Type) [DecidableEq ι] (chips : Chips) : Machine (Crew ι) (ι × Int) where
  start s := s.chips = chips ∧ ∀ i, ∃ calls : List (PowerCall ℚ),
    (∀ c ∈ calls, c.NonNeg ∧ ∀ v, c ≠ .up v) ∧ s.todo i = calls.flatMap PowerCall.writes
  step a s :=
    match s.todo a.1 with
    | [] => none
    | w :: l =>
      match w.perform { s.chips with results := [a.2] } with
      | some chips => some ⟨chips, Function.update s.todo a.1 l⟩
      | none => some s

/-- The channels follow a board on which the threads keep the rule. -/
structure Crew.Ok {ι : Type} (s : Crew ι) (b : Board ℚ) : Prop where
  follows : s.chips.Follows b
  pool : Pool.Ok ⟨b, s.todo⟩
  inRange : ∀ i, ∀ w ∈ s.todo i, w.InRange

/-- One try of one write. -/
theorem Crew.Ok.step {ι : Type} [DecidableEq ι] {s s' : Crew ι} {b : Board ℚ} {chips : Chips} {a : ι × Int}
    (hs : s.Ok b) (h : (crew ι chips).step a s = some s') : ∃ b', s'.Ok b' := by
  obtain ⟨i, result⟩ := a
  simp only [crew] at h
  split at h
  · cases h
  · rename_i w l hi
    split at h
    · rename_i after hw
      obtain rfl := Option.some.inj h
      have hrange := hs.inRange i
      rw [hi] at hrange
      have hbegun : Chips.Follows { s.chips with results := [result] } b := ⟨hs.follows.pin, hs.follows.code⟩
      refine ⟨w.apply b, hbegun.perform (hrange w List.mem_cons_self) hw, hs.pool.write hi, fun j => ?_⟩
      show ∀ w' ∈ Function.update s.todo i l j, w'.InRange
      by_cases hj : j = i
      · subst hj
        rw [Function.update_self]
        exact fun w' hw' => hrange w' (List.mem_cons_of_mem w hw')
      · rw [Function.update_of_ne hj]
        exact hs.inRange j
    · obtain rfl := Option.some.inj h
      exact ⟨b, hs⟩

theorem crew_ok {ι : Type} [DecidableEq ι] {chips : Chips} {b : Board ℚ} (hchips : chips.Follows b)
    (hb : b.Rule) {s : Crew ι} (hr : (crew ι chips).Reach s) : ∃ b', s.Ok b' := by
  refine hr.invariant (I := fun s => ∃ b', s.Ok b') ?_ ?_
  · rintro s ⟨rfl, hs⟩
    refine ⟨b, hchips, ⟨hb, fun i => ?_, fun i => ?_⟩, fun i => ?_⟩ <;> obtain ⟨calls, hc, hi⟩ := hs i
    · show Guarded _ _ (s.todo i)
      rw [hi]
      exact (calls_careful fun c hmem => (hc c hmem).2).1.mono False.elim False.elim
    · show ∀ w ∈ s.todo i, w.Meek
      rw [hi]
      exact (calls_careful fun c hmem => (hc c hmem).2).2
    · rw [hi]
      intro w hw
      obtain ⟨c, hmem, hwc⟩ := List.mem_flatMap.mp hw
      exact PowerCall.writes_inRange (hc c hmem).1 w hwc
  · rintro a s s' ⟨b', hs⟩ - h
    exact hs.step h

/-- **The 1.8 V channels are up whenever a 3.3 V one is**: after any number of writes of every sequence of
calls, whichever tries fail, and in every state of any number of `power_core` and `power_down` calls made at
the same time. -/
theorem codes_in_order (chips : Chips) (b : Board ℚ) (hchips : chips.Follows b) (hb : b.Rule) :
    (∀ (calls : List (PowerCall ℚ)) (n : Nat) (s : Chips), (∀ c ∈ calls, c.NonNeg) →
      Chips.run ((calls.flatMap PowerCall.writes).take n) chips = some s → s.Rule) ∧
    ∀ (ι : Type) [DecidableEq ι] (s : Crew ι), (crew ι chips).Reach s → s.chips.Rule := by
  refine ⟨fun calls n s hcalls hrun => ?_, fun ι _ s hr => ?_⟩
  · refine (hchips.run (fun w hw => ?_) hrun).rule (calls_along_rule calls hb n)
    obtain ⟨c, hc, hwc⟩ := List.mem_flatMap.mp (List.mem_of_mem_take hw)
    exact PowerCall.writes_inRange (hcalls c hc) w hwc
  · obtain ⟨b', hs⟩ := crew_ok hchips hb hr
    exact hs.follows.rule hs.pool.rule

theorem off_follows : Chips.off.Follows Board.off := by
  refine ⟨rfl, fun chan => ?_⟩
  show 0 = ⌊(1241 * 0 : ℚ)⌋₊ / 16 * 16
  simp

/-- Two writes and a few failed tries into `power_up`, from a board without power. -/
theorem codes_in_order_off : ∃ s, Chips.run ((PowerCall.up 1).writes.take 8) .off = some s ∧ s.Rule := by
  obtain ⟨s, hrun, -⟩ := Chips.run_returns ((PowerCall.up 1).writes.take 8) .off (by decide)
  refine ⟨s, hrun, (codes_in_order .off Board.off off_follows (Board.Low.rule ⟨rfl, rfl⟩)).1 [.up 1] 8 s ?_ ?_⟩
  · simp [PowerCall.NonNeg]
  · rw [List.flatMap_singleton]
    exact hrun

end Expedition
