import Expedition.Jtag.World
import Expedition.Lib.Machine
import Mathlib.Data.Rat.Defs

/-!
# The supplies of the chip

`power.cpp` over the board: the output pins of `pinout.h` and the fourteen channels of the two DACs.
A function is the list of the writes it makes, in order, so that they can be made one at a time and
between those of other threads.  `wait` only takes time and is left out.

* `power_core`, `power_up`, `power_down` — the three functions.
* `Board.Rule` — the 1.8 V supplies are up whenever a 3.3 V one is.
* `PowerCall.along_rule` — the rule holds at every point of every call.
* `pool_ok` — and at every point of any number of `power_core` and `power_down` calls at once: a
  `power_down` lowers the 1.8 V supplies only after it has itself lowered the 3.3 V ones, which
  nothing else raises.
-/

namespace Expedition

/-- `float` arithmetic as far as `power.cpp` uses it: the literals are `double`, comparisons and the
addition are made in `double`, and an assignment rounds. -/
class CFloat (F : Type) where
  Double : Type
  /-- An `int` constant converted to `float`. -/
  ofInt : Int → F
  literal : ℚ → Double
  widen : F → Double
  narrow : Double → F
  lt : Double → Double → Bool
  add : Double → Double → Double

/-- Exact arithmetic. -/
instance : CFloat ℚ where
  Double := ℚ
  ofInt n := n
  literal q := q
  widen q := q
  narrow q := q
  lt p q := p < q
  add p q := p + q

/-! ## The board -/

/-- The output pins. -/
inductive Pin where
  | power_indicator
  | power_error_indicator
  | PORESETn
  | CORERESETn
  | ack_intr
  | scan_data_in
  | scan_phi
  | scan_phi_bar
  | scan_load_chain
  | scan_load_chip
  | TCK
  | TMS
  | TDI
  deriving DecidableEq, Repr

/-- The supplies (`pinout.h`). -/
inductive Rail where
  | ADVDD
  | PADVDD
  | DVDD
  | ADVDD2
  | COREVDD
  | DVDD2
  | SENSORVDD
  | SENSORLOWVDD
  | SENSORSTRESSVDD
  | CLOCKVDD
  | MEM1VDD
  | MEM2VDD
  | PLLAVDD
  | RING_OSC_NBIAS
  deriving DecidableEq, Repr

def ADDR_0 : Byte := 0x90
def ADDR_1 : Byte := 0x94

def CHAN_A : Byte := 0x30
def CHAN_B : Byte := 0x31
def CHAN_C : Byte := 0x32
def CHAN_D : Byte := 0x33
def CHAN_E : Byte := 0x34
def CHAN_F : Byte := 0x35
def CHAN_G : Byte := 0x36
def CHAN_H : Byte := 0x37

/-- The macro of a supply: the I2C address of its DAC and the channel. -/
def Rail.chan : Rail → Byte × Byte
  | ADVDD => (ADDR_1, CHAN_A)
  | PADVDD => (ADDR_1, CHAN_B)
  | DVDD => (ADDR_1, CHAN_C)
  | ADVDD2 => (ADDR_1, CHAN_D)
  | COREVDD => (ADDR_1, CHAN_E)
  | DVDD2 => (ADDR_1, CHAN_F)
  | SENSORVDD => (ADDR_1, CHAN_G)
  | SENSORLOWVDD => (ADDR_1, CHAN_H)
  | SENSORSTRESSVDD => (ADDR_0, CHAN_A)
  | CLOCKVDD => (ADDR_0, CHAN_B)
  | MEM1VDD => (ADDR_0, CHAN_C)
  | MEM2VDD => (ADDR_0, CHAN_D)
  | PLLAVDD => (ADDR_0, CHAN_E)
  | RING_OSC_NBIAS => (ADDR_0, CHAN_F)

theorem Rail.chan_injective : Function.Injective Rail.chan := by
  intro r r' h
  cases r <;> cases r' <;> first | rfl | exact absurd h (by decide)

/-- The levels of the pins and the voltage last requested of each DAC channel. -/
structure Board (F : Type) where
  pin : Pin → Bool
  dac : Byte × Byte → F

/-- One write to the board. -/
inductive Write (F : Type) where
  | pin (p : Pin) (level : Bool)
  | dac (chan : Byte × Byte) (voltage : F)
  deriving DecidableEq, Repr

variable {F : Type}

def Board.rail (b : Board F) (r : Rail) : F := b.dac r.chan

def Write.apply : Write F → Board F → Board F
  | pin p level, b => { b with pin := Function.update b.pin p level }
  | dac chan voltage, b => { b with dac := Function.update b.dac chan voltage }

/-- The writes one after the other. -/
def Board.run : List (Write F) → Board F → Board F
  | [], b => b
  | w :: l, b => Board.run l (w.apply b)

theorem Board.run_append (l l' : List (Write F)) (b : Board F) :
    Board.run (l ++ l') b = Board.run l' (Board.run l b) := by
  induction l generalizing b with
  | nil => rfl
  | cons w l ih => exact ih _

/-- A write to one supply changes no other. -/
theorem Write.apply_rail (r r' : Rail) (v : F) (b : Board F) :
    ((Write.dac r.chan v).apply b).rail r' = if r' = r then v else b.rail r' := by
  by_cases h : r' = r
  · subst h
    simp [apply, Board.rail]
  · rw [if_neg h]
    show Function.update b.dac r.chan v r'.chan = b.dac r'.chan
    exact Function.update_of_ne (fun hc => h (Rail.chan_injective hc)) _ _

@[simp] theorem Write.apply_pin_rail (p : Pin) (level : Bool) (b : Board F) (r : Rail) :
    ((Write.pin p level).apply b).rail r = b.rail r := rfl

/-! ## `dac.cpp` and `power.cpp` -/

/-- `power_chan`: the channel is written between two changes of the error indicator. -/
def power_chan (r : Rail) (voltage : F) : List (Write F) :=
  [.pin .power_error_indicator true, .dac r.chan voltage, .pin .power_error_indicator false]

/-- Calls of `power_chan` one after the other. -/
def power_chans (l : List (Rail × F)) : List (Write F) := l.flatMap fun x => power_chan x.1 x.2

/-! ## What holds between the writes -/

/-- `P` holds before the first write, between any two and after the last. -/
def Along (P : Board F → Prop) (l : List (Write F)) (b : Board F) : Prop :=
  ∀ n, P (Board.run (l.take n) b)

/-- The write does not make `P` false. -/
def Write.Keeps (P : Board F → Prop) (w : Write F) : Prop := ∀ b, P b → P (w.apply b)

/-- `P` is about the supplies in `rs` only. -/
def About (rs : List Rail) (P : Board F → Prop) : Prop :=
  ∀ b b', (∀ r ∈ rs, b'.rail r = b.rail r) → P b → P b'

section

variable {P Q : Board F → Prop} {l l' : List (Write F)} {b : Board F}

theorem Along.append (h : Along P l b) (h' : Along P l' (Board.run l b)) : Along P (l ++ l') b := by
  intro n
  rw [List.take_append, Board.run_append]
  by_cases hn : n ≤ l.length
  · rw [Nat.sub_eq_zero_of_le hn]
    exact h n
  · rw [List.take_of_length_le (i := n) (l := l) (by omega)]
    exact h' _

theorem Along.mono (hPQ : ∀ b, P b → Q b) (h : Along P l b) : Along Q l b :=
  fun n => hPQ _ (h n)

theorem Along.last (h : Along P l b) : P (Board.run l b) := by
  have := h l.length
  rwa [List.take_length] at this

/-- What every write keeps holds along the list. -/
theorem Along.of_keeps (hkeep : ∀ w ∈ l, w.Keeps P) (hb : P b) : Along P l b := by
  intro n
  induction n generalizing l b with
  | zero => exact hb
  | succ n ih =>
    cases l with
    | nil => exact hb
    | cons w l =>
      exact ih (fun w' hw' => hkeep w' (List.mem_cons_of_mem w hw'))
        (hkeep w List.mem_cons_self b hb)

theorem About.keeps_pin {rs : List Rail} (hP : About rs P) (p : Pin) (level : Bool) :
    (Write.pin p level).Keeps P :=
  fun b hb => hP b _ (fun _ _ => rfl) hb

theorem About.keeps_dac {rs : List Rail} (hP : About rs P) {r : Rail} (hr : r ∉ rs) (v : F) :
    (Write.dac r.chan v).Keeps P := by
  intro b hb
  refine hP b _ (fun r' hr' => ?_) hb
  rw [Write.apply_rail, if_neg (by rintro rfl; exact hr hr')]

/-- The three writes of `power_chan`, of which one matters. -/
theorem About.keeps_chan {rs : List Rail} (hP : About rs P) {r : Rail} {v : F}
    (hr : (Write.dac r.chan v).Keeps P) : ∀ w ∈ power_chan r v, w.Keeps P := by
  intro w hw
  simp only [power_chan, List.mem_cons, List.not_mem_nil, or_false] at hw
  rcases hw with rfl | rfl | rfl
  · exact hP.keeps_pin _ _
  · exact hr
  · exact hP.keeps_pin _ _

/-- Calls of `power_chan` that are each harmless or to a supply `P` is not about. -/
theorem About.keeps_chans {rs : List Rail} (hP : About rs P) {l : List (Rail × F)}
    (hl : ∀ x ∈ l, x.1 ∉ rs ∨ (Write.dac x.1.chan x.2).Keeps P) :
    ∀ w ∈ power_chans l, w.Keeps P := by
  intro w hw
  obtain ⟨x, hx, hwx⟩ := List.mem_flatMap.mp hw
  rcases hl x hx with h | h
  · exact hP.keeps_chan (hP.keeps_dac h x.2) w hwx
  · exact hP.keeps_chan h w hwx

end

section

variable [CFloat F]

open CFloat

/-- A `double` constant assigned to a `float`. -/
def volts (q : ℚ) : F := narrow (literal q : Double F)

/-- `x > n` for an `int` constant. -/
def exceeds (x : F) (n : Int) : Bool := lt (widen (ofInt n : F)) (widen x)

/-- `x < q` for a `double` constant. -/
def below (x : F) (q : ℚ) : Bool := lt (widen x) (literal q : Double F)

def power_core (core_volt : F) : List (Write F) :=
  let core := if exceeds core_volt 1 then ofInt 1 else core_volt
  let periph := if below core (9 / 10) then volts (9 / 10) else core
  let mem := if below core (8 / 10) then narrow (add (widen core) (literal (5 / 100) : Double F)) else core
  power_chans [
    (.PADVDD, periph),
    (.COREVDD, core),
    (.MEM1VDD, mem),
    (.MEM2VDD, mem),
    (.CLOCKVDD, periph),
    (.PLLAVDD, periph),
    (.SENSORVDD, core),
    (.SENSORLOWVDD, volts (35 / 100)),
    (.SENSORSTRESSVDD, periph)]

/-- `power_up` after the 1.8 V supplies. -/
def power_up_rest (core_volt : F) : List (Write F) :=
  let core := if exceeds core_volt 1 then ofInt 1 else core_volt
  let periph := if below core (95 / 100) then volts (95 / 100) else core
  let mem := periph
  power_chans [
    (.ADVDD, volts (33 / 10)),
    (.DVDD, volts (33 / 10)),
    (.PADVDD, volts 1),
    (.COREVDD, core),
    (.MEM1VDD, mem),
    (.MEM2VDD, mem),
    (.CLOCKVDD, periph),
    (.PLLAVDD, volts 1),
    (.RING_OSC_NBIAS, volts (75 / 100)),
    (.SENSORVDD, core),
    (.SENSORLOWVDD, volts (35 / 100)),
    (.SENSORSTRESSVDD, volts 1)] ++
  [.pin .power_indicator true]

def power_up (core_volt : F) : List (Write F) :=
  -- the 1.8V supplies must be up whenever the 3.3V ones are
  power_chans [(.ADVDD2, volts (18 / 10)), (.DVDD2, volts (18 / 10))] ++ power_up_rest core_volt

/-- The inputs of the chip `power_down` lowers first. -/
def zeroed : List Pin :=
  [.PORESETn, .CORERESETn, .TCK, .TMS, .TDI, .scan_data_in, .scan_phi, .scan_phi_bar,
    .scan_load_chain, .scan_load_chip]

/-- The supplies it lowers then: core and memory, clock, sensors, and the 3.3 V ones. -/
def lowered : List Rail :=
  [.COREVDD, .MEM1VDD, .MEM2VDD, .CLOCKVDD, .PLLAVDD, .RING_OSC_NBIAS, .SENSORVDD, .SENSORLOWVDD,
    .SENSORSTRESSVDD, .ADVDD, .DVDD]

/-- The supplies it lowers last. -/
def loweredLast : List Rail := [.PADVDD, .ADVDD2, .DVDD2]

def zero_chans (rs : List Rail) : List (Write F) := power_chans (rs.map fun r => (r, ofInt 0))

/-- `power_down` up to the 3.3 V supplies. -/
def power_down_begin : List (Write F) := zeroed.map (fun p => .pin p false) ++ zero_chans lowered

/-- `power_down` after them. -/
def power_down_end : List (Write F) := zero_chans loweredLast ++ [.pin .power_indicator false]

def power_down : List (Write F) := power_down_begin ++ power_down_end

theorem mem_zero_chans {rs : List Rail} {x : Rail × F} (h : x ∈ rs.map fun r => (r, (ofInt 0 : F))) :
    x.1 ∈ rs ∧ x.2 = ofInt 0 := by
  obtain ⟨r, hr, rfl⟩ := List.mem_map.mp h
  exact ⟨hr, rfl⟩

/-! ## The rule -/

/-- The 1.8 V supplies are up whenever a 3.3 V one is. -/
def Board.Rule (b : Board F) : Prop :=
  b.rail .ADVDD ≠ ofInt 0 ∨ b.rail .DVDD ≠ ofInt 0 →
    b.rail .ADVDD2 = volts (18 / 10) ∧ b.rail .DVDD2 = volts (18 / 10)

/-- Both 3.3 V supplies are down. -/
structure Board.Low (b : Board F) : Prop where
  advdd : b.rail .ADVDD = ofInt 0
  dvdd : b.rail .DVDD = ofInt 0

/-- Both 1.8 V supplies are up. -/
structure Board.Up (b : Board F) : Prop where
  advdd2 : b.rail .ADVDD2 = volts (18 / 10)
  dvdd2 : b.rail .DVDD2 = volts (18 / 10)

theorem Board.Low.rule {b : Board F} (h : b.Low) : b.Rule := by
  intro h'
  rcases h' with h' | h'
  · exact absurd h.advdd h'
  · exact absurd h.dvdd h'

theorem Board.Up.rule {b : Board F} (h : b.Up) : b.Rule :=
  fun _ => ⟨h.advdd2, h.dvdd2⟩

theorem Board.about_rule : About [.ADVDD, .DVDD, .ADVDD2, .DVDD2] (Board.Rule (F := F)) := by
  intro b b' h hb
  unfold Rule at hb ⊢
  rw [h .ADVDD (by decide), h .DVDD (by decide), h .ADVDD2 (by decide), h .DVDD2 (by decide)]
  exact hb

theorem Board.about_low : About [.ADVDD, .DVDD] (Board.Low (F := F)) := by
  intro b b' h hb
  exact ⟨(h .ADVDD (by decide)).trans hb.advdd, (h .DVDD (by decide)).trans hb.dvdd⟩

theorem Board.about_up : About [.ADVDD2, .DVDD2] (Board.Up (F := F)) := by
  intro b b' h hb
  exact ⟨(h .ADVDD2 (by decide)).trans hb.advdd2, (h .DVDD2 (by decide)).trans hb.dvdd2⟩

/-- Lowering a 3.3 V supply keeps the rule. -/
theorem keeps_rule_of_zero {r : Rail} (hr : r = .ADVDD ∨ r = .DVDD) :
    (Write.dac r.chan (ofInt 0 : F)).Keeps Board.Rule := by
  intro b hb h
  have hne : r ≠ .ADVDD2 ∧ r ≠ .DVDD2 := by
    rcases hr with rfl | rfl <;> decide
  simp only [Write.apply_rail, if_neg hne.1.symm, if_neg hne.2.symm] at h ⊢
  apply hb
  rcases hr with rfl | rfl
  · exact .inr (by simpa using h)
  · exact .inl (by simpa using h)

/-- Raising a 1.8 V supply keeps the rule. -/
theorem keeps_rule_of_up {r : Rail} (hr : r = .ADVDD2 ∨ r = .DVDD2) :
    (Write.dac r.chan (volts (18 / 10) : F)).Keeps Board.Rule := by
  intro b hb h
  have hne : r ≠ .ADVDD ∧ r ≠ .DVDD := by
    rcases hr with rfl | rfl <;> decide
  simp only [Write.apply_rail, if_neg hne.1.symm, if_neg hne.2.symm] at h ⊢
  have := hb h
  constructor
  · split
    · rfl
    · exact this.1
  · split
    · rfl
    · exact this.2

/-! ## One call after the other -/

/-- The 3.3 V and 1.8 V supplies. -/
def ruled : List Rail := [.ADVDD, .DVDD, .ADVDD2, .DVDD2]

/-- `power_core` writes none of the four supplies. -/
theorem power_core_chans (core_volt : F) :
    ∃ l, power_core core_volt = power_chans l ∧ ∀ x ∈ l, x.1 ∉ ruled := by
  refine ⟨_, rfl, ?_⟩
  simp [ruled]

theorem power_core_keeps (core_volt : F) : ∀ w ∈ power_core core_volt, w.Keeps Board.Rule := by
  obtain ⟨l, hl, hx⟩ := power_core_chans core_volt
  rw [hl]
  exact Board.about_rule.keeps_chans fun x h => .inl (hx x h)

theorem power_up_rest_keeps (core_volt : F) : ∀ w ∈ power_up_rest core_volt, w.Keeps Board.Up := by
  refine List.forall_mem_append.mpr ⟨Board.about_up.keeps_chans ?_, ?_⟩
  · simp
  · intro w hw
    rw [List.mem_singleton.mp hw]
    exact Board.about_up.keeps_pin _ _

theorem power_down_begin_keeps : ∀ w ∈ (power_down_begin : List (Write F)), w.Keeps Board.Rule := by
  refine List.forall_mem_append.mpr ⟨?_, Board.about_rule.keeps_chans fun x hx => ?_⟩
  · intro w hw
    obtain ⟨p, -, rfl⟩ := List.mem_map.mp hw
    exact Board.about_rule.keeps_pin p false
  · obtain ⟨hr, hv⟩ := mem_zero_chans hx
    rw [hv]
    by_cases h33 : x.1 = .ADVDD ∨ x.1 = .DVDD
    · exact .inr (keeps_rule_of_zero h33)
    · refine .inl ?_
      revert hr h33
      generalize x.1 = r
      cases r <;> decide

theorem power_down_end_keeps : ∀ w ∈ (power_down_end : List (Write F)), w.Keeps Board.Low := by
  refine List.forall_mem_append.mpr ⟨Board.about_low.keeps_chans fun x hx => .inl ?_, ?_⟩
  · have hr := (mem_zero_chans hx).1
    revert hr
    generalize x.1 = r
    cases r <;> decide
  · intro w hw
    rw [List.mem_singleton.mp hw]
    exact Board.about_low.keeps_pin _ _

/-- Calls that lower supplies leave them, and those that were low before, at 0. -/
theorem Board.run_zero_chans (rs : List Rail) : ∀ (b : Board F) (r : Rail),
    r ∈ rs ∨ b.rail r = ofInt 0 → (Board.run (zero_chans rs) b).rail r = ofInt 0 := by
  induction rs with
  | nil =>
    intro b r h
    exact h.resolve_left (List.not_mem_nil)
  | cons r' rs ih =>
    intro b r h
    show (Board.run (power_chan r' (ofInt 0) ++ zero_chans rs) b).rail r = ofInt 0
    rw [Board.run_append]
    apply ih
    have hchan : (Board.run (power_chan r' (ofInt 0)) b).rail r =
        if r = r' then ofInt 0 else b.rail r := Write.apply_rail r' r _ _
    rw [hchan]
    rcases h with h | h
    · rcases List.mem_cons.mp h with h | h
      · exact .inr (if_pos h)
      · exact .inl h
    · right
      rw [h, ite_self]

theorem power_down_begin_low (b : Board F) : (Board.run power_down_begin b).Low := by
  rw [power_down_begin, Board.run_append]
  exact ⟨Board.run_zero_chans lowered _ _ (.inl (by decide)),
    Board.run_zero_chans lowered _ _ (.inl (by decide))⟩

/-- A call of one of the three functions. -/
inductive PowerCall (F : Type) where
  | up (core_volt : F)
  | core (core_volt : F)
  | down

def PowerCall.writes : PowerCall F → List (Write F)
  | up core_volt => power_up core_volt
  | core core_volt => power_core core_volt
  | down => power_down

/-- The rule holds at every point of a call. -/
theorem PowerCall.along_rule (c : PowerCall F) {b : Board F} (hb : b.Rule) :
    Along Board.Rule c.writes b := by
  cases c with
  | up core_volt =>
    refine Along.append (Along.of_keeps (Board.about_rule.keeps_chans fun x hx => .inr ?_) hb) ?_
    · simp only [List.mem_cons, List.not_mem_nil, or_false] at hx
      rcases hx with rfl | rfl
      · exact keeps_rule_of_up (.inl rfl)
      · exact keeps_rule_of_up (.inr rfl)
    · -- from here on both 1.8 V supplies are up and stay so
      refine (Along.of_keeps (power_up_rest_keeps core_volt) ?_).mono fun _ => Board.Up.rule
      constructor
      · simp [power_chans, power_chan, Board.run, Write.apply_rail]
      · simp [power_chans, power_chan, Board.run, Write.apply_rail]
  | core core_volt => exact Along.of_keeps (power_core_keeps core_volt) hb
  | down =>
    -- after the first half both 3.3 V supplies are down and stay so
    exact Along.append (Along.of_keeps power_down_begin_keeps hb)
      ((Along.of_keeps power_down_end_keeps (power_down_begin_low b)).mono fun _ => Board.Low.rule)

/-- The rule holds at every point of every sequence of calls. -/
theorem calls_along_rule (calls : List (PowerCall F)) {b : Board F} (hb : b.Rule) :
    Along Board.Rule (calls.flatMap PowerCall.writes) b := by
  induction calls generalizing b with
  | nil => exact fun n => by simpa [Board.run] using hb
  | cons c calls ih =>
    have hc := c.along_rule hb
    exact hc.append (ih hc.last)

/-! ## Calls at the same time -/

/-- The writes still to make of each thread. -/
structure Pool (ι F : Type) where
  board : Board F
  todo : ι → List (Write F)

/-- Threads `ι` that each run a sequence of `power_core` and `power_down` calls, from board `b`; an
action is the next write of a thread. -/
def pool (ι : Type) [DecidableEq ι] (b : Board F) : Machine (Pool ι F) ι where
  start s := s.board = b ∧ ∀ i, ∃ calls : List (PowerCall F),
    (∀ c ∈ calls, ∀ v, c ≠ .up v) ∧ s.todo i = calls.flatMap PowerCall.writes
  step i s :=
    match s.todo i with
    | [] => none
    | w :: l => some ⟨w.apply s.board, Function.update s.todo i l⟩

/-- The write raises no 3.3 V supply. -/
def Write.Meek (w : Write F) : Prop :=
  ∀ r v, r = .ADVDD ∨ r = .DVDD → w = .dac (Rail.chan r) v → v = ofInt 0

/-- The write is to a 1.8 V supply. -/
def Write.On18 (w : Write F) : Prop := ∃ r v, (r = .ADVDD2 ∨ r = .DVDD2) ∧ w = .dac (Rail.chan r) v

/-- A 1.8 V supply is written in `l` only where both 3.3 V ones are down: `a` and `d` say that they
are at the beginning, and a write of zero brings them there. -/
def Guarded (a d : Prop) : List (Write F) → Prop
  | [] => True
  | w :: l => (w.On18 → a ∧ d) ∧
    Guarded (a ∨ w = .dac Rail.ADVDD.chan (ofInt 0)) (d ∨ w = .dac Rail.DVDD.chan (ofInt 0)) l

section Guarded

variable {a d a' d' : Prop} {l l' : List (Write F)}

theorem Guarded.mono (ha : a → a') (hd : d → d') (h : Guarded a d l) : Guarded a' d' l := by
  induction l generalizing a d a' d' with
  | nil => trivial
  | cons w l ih =>
    refine ⟨fun hw => ⟨ha (h.1 hw).1, hd (h.1 hw).2⟩, ih ?_ ?_ h.2⟩
    · exact Or.imp_left ha
    · exact Or.imp_left hd

theorem Guarded.append (h : Guarded a d l)
    (h' : Guarded (a ∨ .dac Rail.ADVDD.chan (ofInt 0) ∈ l) (d ∨ .dac Rail.DVDD.chan (ofInt 0) ∈ l) l') :
    Guarded a d (l ++ l') := by
  induction l generalizing a d with
  | nil => exact h'.mono (by simp) (by simp)
  | cons w l ih =>
    refine ⟨h.1, ih h.2 (h'.mono ?_ ?_)⟩
    · simp only [List.mem_cons, or_assoc, eq_comm, imp_self]
    · simp only [List.mem_cons, or_assoc, eq_comm, imp_self]

theorem Guarded.of_aside (h : ∀ w ∈ l, ¬ w.On18) : Guarded a d l := by
  induction l generalizing a d with
  | nil => trivial
  | cons w l ih =>
    exact ⟨fun hw => absurd hw (h w List.mem_cons_self),
      ih fun w' hw' => h w' (List.mem_cons_of_mem w hw')⟩

theorem Guarded.of_low (ha : a) (hd : d) : Guarded a d l := by
  induction l generalizing a d with
  | nil => trivial
  | cons w l ih => exact ⟨fun _ => ⟨ha, hd⟩, ih (.inl ha) (.inl hd)⟩

end Guarded

omit [CFloat F] in
theorem not_on18_pin (p : Pin) (level : Bool) : ¬ (Write.pin p level : Write F).On18 := by
  rintro ⟨r, v, -, h⟩
  cases h

omit [CFloat F] in
theorem not_on18_chans {l : List (Rail × F)} (hl : ∀ x ∈ l, x.1 ≠ .ADVDD2 ∧ x.1 ≠ .DVDD2) :
    ∀ w ∈ power_chans l, ¬ w.On18 := by
  intro w hw
  obtain ⟨x, hx, hwx⟩ := List.mem_flatMap.mp hw
  simp only [power_chan, List.mem_cons, List.not_mem_nil, or_false] at hwx
  rcases hwx with rfl | rfl | rfl
  · exact not_on18_pin _ _
  · rintro ⟨r, v, hr, h⟩
    have hxr : x.1 = r := Rail.chan_injective (Write.dac.inj h).1
    rcases hr with rfl | rfl
    · exact (hl x hx).1 hxr
    · exact (hl x hx).2 hxr
  · exact not_on18_pin _ _

theorem meek_pin (p : Pin) (level : Bool) : (Write.pin p level : Write F).Meek := by
  intro r v _ h
  cases h

theorem meek_chans {l : List (Rail × F)}
    (hl : ∀ x ∈ l, x.1 = .ADVDD ∨ x.1 = .DVDD → x.2 = ofInt 0) :
    ∀ w ∈ power_chans l, w.Meek := by
  intro w hw
  obtain ⟨x, hx, hwx⟩ := List.mem_flatMap.mp hw
  simp only [power_chan, List.mem_cons, List.not_mem_nil, or_false] at hwx
  rcases hwx with rfl | rfl | rfl
  · exact meek_pin _ _
  · intro r v hr h
    obtain ⟨hchan, rfl⟩ := Write.dac.inj h
    exact hl x hx (by rwa [Rail.chan_injective hchan])
  · exact meek_pin _ _

theorem power_core_not_on18 (core_volt : F) : ∀ w ∈ power_core core_volt, ¬ w.On18 := by
  obtain ⟨l, hl, hx⟩ := power_core_chans core_volt
  rw [hl]
  refine not_on18_chans fun x h => ⟨fun he => hx x h ?_, fun he => hx x h ?_⟩
  · simp [ruled, he]
  · simp [ruled, he]

theorem power_core_meek (core_volt : F) : ∀ w ∈ power_core core_volt, w.Meek := by
  obtain ⟨l, hl, hx⟩ := power_core_chans core_volt
  rw [hl]
  refine meek_chans fun x h h33 => absurd ?_ (hx x h)
  rcases h33 with he | he <;> simp [ruled, he]

theorem power_down_begin_not_on18 : ∀ w ∈ (power_down_begin : List (Write F)), ¬ w.On18 := by
  refine List.forall_mem_append.mpr ⟨?_, not_on18_chans fun x hx => ?_⟩
  · intro w hw
    obtain ⟨p, -, rfl⟩ := List.mem_map.mp hw
    exact not_on18_pin p false
  · have hr := (mem_zero_chans hx).1
    revert hr
    generalize x.1 = r
    cases r <;> decide

theorem power_down_meek : ∀ w ∈ (power_down : List (Write F)), w.Meek := by
  have hzero : ∀ rs : List Rail, ∀ w ∈ (zero_chans rs : List (Write F)), w.Meek := fun rs =>
    meek_chans fun x hx _ => (mem_zero_chans hx).2
  refine List.forall_mem_append.mpr ⟨List.forall_mem_append.mpr ⟨?_, hzero _⟩,
    List.forall_mem_append.mpr ⟨hzero _, ?_⟩⟩
  · intro w hw
    obtain ⟨p, -, rfl⟩ := List.mem_map.mp hw
    exact meek_pin p false
  · intro w hw
    rw [List.mem_singleton.mp hw]
    exact meek_pin _ _

theorem power_down_guarded : Guarded False False (power_down : List (Write F)) := by
  refine Guarded.append (Guarded.of_aside power_down_begin_not_on18) (Guarded.of_low (.inr ?_) (.inr ?_))
  · simp [power_down_begin, zero_chans, power_chans, power_chan, lowered]
  · simp [power_down_begin, zero_chans, power_chans, power_chan, lowered]

/-- What is asked of the calls made at the same time. -/
theorem PowerCall.careful {c : PowerCall F} (hc : ∀ v, c ≠ .up v) :
    Guarded False False c.writes ∧ ∀ w ∈ c.writes, w.Meek := by
  cases c with
  | up v => exact absurd rfl (hc v)
  | core v => exact ⟨.of_aside (power_core_not_on18 v), power_core_meek v⟩
  | down => exact ⟨power_down_guarded, power_down_meek⟩

theorem calls_careful {calls : List (PowerCall F)} (hc : ∀ c ∈ calls, ∀ v, c ≠ .up v) :
    Guarded False False (calls.flatMap PowerCall.writes) ∧
      ∀ w ∈ calls.flatMap PowerCall.writes, w.Meek := by
  induction calls with
  | nil => exact ⟨trivial, by simp⟩
  | cons c calls ih =>
    obtain ⟨hg, hm⟩ := PowerCall.careful (hc c List.mem_cons_self)
    obtain ⟨hg', hm'⟩ := ih fun c' hc' => hc c' (List.mem_cons_of_mem c hc')
    rw [List.flatMap_cons]
    exact ⟨hg.append (hg'.mono False.elim False.elim), List.forall_mem_append.mpr ⟨hm, hm'⟩⟩

/-- A write that raises no 3.3 V supply leaves one that is down down, and a write of zero brings it
there. -/
theorem Write.Meek.low {w : Write F} (hw : w.Meek) {r : Rail} (hr : r = .ADVDD ∨ r = .DVDD)
    {b : Board F} (h : b.rail r = ofInt 0 ∨ w = .dac r.chan (ofInt 0)) :
    (w.apply b).rail r = ofInt 0 := by
  cases w with
  | pin p level =>
    rcases h with h | h
    · exact h
    · cases h
  | dac chan v =>
    by_cases hchan : chan = r.chan
    · subst hchan
      rw [Write.apply_rail, if_pos rfl]
      exact hw r v hr rfl
    · have hkept : ((Write.dac chan v).apply b).rail r = b.rail r :=
        Function.update_of_ne (Ne.symm hchan) _ _
      rw [hkept]
      rcases h with h | h
      · exact h
      · exact absurd (Write.dac.inj h).1 hchan

/-- A write that raises no 3.3 V supply, and is to a 1.8 V one only while both 3.3 V ones are down,
keeps the rule. -/
theorem Write.Meek.rule {w : Write F} (hw : w.Meek) {b : Board F} (hb : b.Rule)
    (h : w.On18 → b.rail .ADVDD = ofInt 0 ∧ b.rail .DVDD = ofInt 0) : (w.apply b).Rule := by
  by_cases h18 : w.On18
  · exact Board.Low.rule ⟨hw.low (.inl rfl) (.inl (h h18).1), hw.low (.inr rfl) (.inl (h h18).2)⟩
  · intro h33
    have hsame : ∀ r, r = .ADVDD2 ∨ r = .DVDD2 → (w.apply b).rail r = b.rail r := by
      intro r hr
      cases w with
      | pin => rfl
      | dac chan v =>
        refine Function.update_of_ne (fun hc => h18 ⟨r, v, hr, ?_⟩) _ _
        rw [hc]
    rw [hsame _ (.inl rfl), hsame _ (.inr rfl)]
    apply hb
    rcases h33 with h33 | h33
    · exact .inl fun h0 => h33 (hw.low (.inl rfl) (.inl h0))
    · exact .inr fun h0 => h33 (hw.low (.inr rfl) (.inl h0))

/-- The rule holds, and what each thread has still to write is careful. -/
structure Pool.Ok {ι : Type} (s : Pool ι F) : Prop where
  rule : s.board.Rule
  guarded : ∀ i, Guarded (s.board.rail .ADVDD = ofInt 0) (s.board.rail .DVDD = ofInt 0) (s.todo i)
  meek : ∀ i, ∀ w ∈ s.todo i, w.Meek

/-- One write of a thread. -/
theorem Pool.Ok.write {ι : Type} [DecidableEq ι] {s : Pool ι F} (hs : s.Ok) {i : ι} {w : Write F}
    {l : List (Write F)} (hi : s.todo i = w :: l) :
    Pool.Ok ⟨w.apply s.board, Function.update s.todo i l⟩ := by
  have hg := hs.guarded i
  have hmeek := hs.meek i
  rw [hi] at hg hmeek
  have hw := hmeek w List.mem_cons_self
  refine ⟨hw.rule hs.rule hg.1, fun j => ?_, fun j => ?_⟩
  · show Guarded _ _ (Function.update s.todo i l j)
    by_cases hj : j = i
    · subst hj
      rw [Function.update_self]
      exact hg.2.mono (hw.low (.inl rfl)) (hw.low (.inr rfl))
    · rw [Function.update_of_ne hj]
      exact (hs.guarded j).mono (fun h0 => hw.low (.inl rfl) (.inl h0))
        (fun h0 => hw.low (.inr rfl) (.inl h0))
  · show ∀ w' ∈ Function.update s.todo i l j, w'.Meek
    by_cases hj : j = i
    · subst hj
      rw [Function.update_self]
      exact fun w' hw' => hmeek w' (List.mem_cons_of_mem w hw')
    · rw [Function.update_of_ne hj]
      exact hs.meek j

theorem pool_ok {ι : Type} [DecidableEq ι] {b : Board F} (hb : b.Rule) {s : Pool ι F}
    (hr : (pool ι b).Reach s) : s.Ok := by
  refine hr.invariant (I := Pool.Ok) ?_ ?_
  · rintro s ⟨rfl, hs⟩
    refine ⟨hb, fun i => ?_, fun i => ?_⟩
    · obtain ⟨calls, hc, hi⟩ := hs i
      rw [hi]
      exact (calls_careful hc).1.mono False.elim False.elim
    · obtain ⟨calls, hc, hi⟩ := hs i
      rw [hi]
      exact (calls_careful hc).2
  · intro i s s' hs _ h
    simp only [pool] at h
    split at h
    · cases h
    · rename_i w l hi
      cases h
      exact hs.write hi

/-- **The 1.8 V supplies are up whenever a 3.3 V one is**: at every point of every sequence of calls of
the three functions, and at every point of any number of `power_core` and `power_down` calls made at
the same time; and no two supplies share a channel. -/
theorem supplies_in_order (b : Board F) (hb : b.Rule) :
    (∀ (calls : List (PowerCall F)) (n : Nat),
      (Board.run ((calls.flatMap PowerCall.writes).take n) b).Rule) ∧
    (∀ (ι : Type) [DecidableEq ι] (s : Pool ι F), (pool ι b).Reach s → s.board.Rule) ∧
    Function.Injective Rail.chan ∧
    ∀ (r r' : Rail) (v : F), r' ≠ r → (Board.run (power_chan r v) b).rail r' = b.rail r' := by
  refine ⟨fun calls => calls_along_rule calls hb, fun ι _ s hs => (pool_ok hb hs).rule,
    Rail.chan_injective, fun r r' v hr => ?_⟩
  show ((Write.dac r.chan v).apply _).rail r' = _
  rw [Write.apply_rail, if_neg hr]
  rfl

/-- A board without power. -/
def Board.off : Board ℚ := ⟨fun _ => false, fun _ => 0⟩

/-- Its supplies ten writes into `power_up` and `power_down`. -/
theorem supplies_in_order_off :
    (Board.run (([PowerCall.up 1, .down].flatMap PowerCall.writes).take 10) Board.off).Rule :=
  (supplies_in_order Board.off (Board.Low.rule ⟨rfl, rfl⟩)).1 [.up 1, .down] 10

end

end Expedition
