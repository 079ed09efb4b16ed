import Expedition.Host.Threads
import Expedition.Jtag.Pins
import Expedition.Power.Rails

/-!
# Powering down among the other threads

All the contexts of the program on one board, with one write of a pin or a DAC channel as a step.
`panic` prints under `term_write_mutex`, runs `power_down` and exits; the other threads are not
stopped and go on with what they were doing.

* What the chip answers is free: every scan may be answered WAIT any number of times, may be answered
  so that the driver panics, and may return any word.
* In the handler a mutex call returns at once without taking the mutex.
* `Lowering` — what the chip's inputs and supplies have to be once a panic has lowered DVDD.
* `Undisturbed` — once a panic's `power_down` has begun nothing drives an input of the chip high or
  raises a supply again, and DVDD is lowered only while `ack_intr`, which `power_down` leaves alone,
  is low.
* `lowering_undisturbed` — then the inputs are never above the lowered supply.
-/

namespace Expedition

open Function

/-! ## The writes of a call -/

/-- What a scan writes when it is answered WAIT `k` times first. -/
def Scan.ops : Scan → Nat → List JtagOp
  | setIR A, _ => setIROps A
  | shiftData data addr rw, k => shiftDataOps data addr rw k
  | expect _ _, k => shiftDataOps 0 DP_RDBUFF READ k

/-- What it writes before the driver panics; `acked` if that is for the word and not for the
acknowledge. -/
def Scan.failOps : Scan → Nat → Bool → List JtagOp
  | setIR A, _, _ => setIRHead A
  | shiftData _ addr rw, k, _ => badAckOps addr rw k
  | expect _ _, k, acked =>
    if acked then shiftDataOps 0 DP_RDBUFF READ k else badAckOps DP_RDBUFF READ k

/-- The debug port stays as it is when TDO is read. -/
instance {μ : Type} [TargetBus μ] : QuietTdo (Port μ) := ⟨fun _ _ => rfl⟩

/-- These are the writes the driver makes. -/
theorem Scan.exec_drives {σ : Type} [JtagDevice σ] [QuietTdo σ] (sc : Scan) :
    Drives (sc.exec : Drv σ Word) (fun l => ∃ k, l = sc.ops k) (fun l => ∃ k b, l = sc.failOps k b) := by
  cases sc with
  | setIR A =>
    refine Drives.mono (Drives.bind (setIR_drives A) fun _ => Makes.pure 0) ?_ ?_
    · rintro _ ⟨_, _, rfl, rfl, rfl⟩
      exact ⟨0, List.append_nil _⟩
    · rintro _ (rfl | ⟨_, _, _, h, _⟩)
      · exact ⟨0, false, rfl⟩
      · exact h.elim
  | shiftData data addr rw =>
    exact (shiftData_drives data addr rw).mono (fun _ h => h) fun l ⟨k, h⟩ => ⟨k, false, h⟩
  | expect name want =>
    have hexp : ∀ rd : Word, Drives (Expedition.expect name rd want >>= fun _ => pure rd : Drv σ Word)
        (· = []) (· = []) := by
      intro rd
      unfold Expedition.expect
      split
      · refine Drives.mono (Drives.bind (panic_drives _) fun _ => Makes.pure rd) ?_ ?_
        · rintro _ ⟨_, _, h, _, _⟩
          exact h.elim
        · rintro _ (h | ⟨_, _, h, _, _⟩)
          · exact h
          · exact h.elim
      · exact Drives.mono (Makes.pure rd) (fun _ h => h) fun _ h => h.elim
    refine Drives.mono (Drives.bind (shiftData_drives 0 DP_RDBUFF READ) hexp) ?_ ?_
    · rintro _ ⟨_, _, ⟨k, rfl⟩, rfl, rfl⟩
      exact ⟨k, List.append_nil _⟩
    · rintro _ (⟨k, rfl⟩ | ⟨_, _, ⟨k, rfl⟩, rfl, rfl⟩)
      · exact ⟨k, false, rfl⟩
      · exact ⟨k, true, List.append_nil _⟩

variable {F : Type}

/-- One element of what a context has to do to the board. -/
inductive BenchOp (F : Type) where
  | write (w : Write F)
  | state (c : Char)
  | leave

def JtagWrite.op : JtagWrite → BenchOp F
  | TCK level => .write (.pin .TCK level)
  | TMS level => .write (.pin .TMS level)
  | TDI level => .write (.pin .TDI level)
  | state c => .state c

def JtagOp.op : JtagOp → BenchOp F
  | write o => o.op
  | leave => .leave

/-! ## The system -/

/-- Where a context is. -/
inductive Place (F : Type) where
  /-- At an instruction, with `done` scans of it made. -/
  | code (p : Pc) (done : Nat)
  /-- In an instruction, with `todo` still to do before it is at the next. -/
  | busy (todo : List (BenchOp F)) (p : Pc) (done : Nat)
  /-- The same before the driver panics. -/
  | failing (todo : List (BenchOp F))
  | panicLock
  | panicPrint
  | panicUnlock
  | powerDown (todo : List (Write F))
  | exited

structure Bench (F : Type) where
  board : Board F
  /-- `JTAG::state`. -/
  state : Char
  shared : Shared
  place : Thread → Place F
  terminated : Thread → Bool
  /-- A panic has begun `power_down`, has set DVDD to 0 in it, has finished it. -/
  begun : Bool
  dvddLow : Bool
  finished : Bool

/-- What a context is answered: by the outside, by the chip to a call, how often a scan is answered
WAIT and whether the driver panics on it. -/
structure Reply where
  ans : Answer
  word : Word
  waits : Nat
  fails : Option Bool

/-- The write is to DVDD. -/
def Write.onDVDD : Write F → Bool
  | .dac chan _ => chan = Rail.DVDD.chan
  | _ => false

namespace Bench

def goto (s : Bench F) (t : Thread) (p : Place F) : Bench F := { s with place := update s.place t p }

/-- The next scan of the call `l`; after the last the context is at `next`. -/
def call (s : Bench F) (t : Thread) (r : Reply) (l : List Scan) (p : Pc) (done : Nat) (next : Pc) :
    Option (Bench F) :=
  l[done]?.map fun sc =>
    match r.fails with
    | some acked => s.goto t (.failing ((sc.failOps r.waits acked).map JtagOp.op))
    | none =>
      if done + 1 = l.length then s.goto t (.busy ((sc.ops r.waits).map JtagOp.op) next 0)
      else s.goto t (.busy ((sc.ops r.waits).map JtagOp.op) p (done + 1))

/-- `jtag->reset()`, and `jtag->leaveState()` except where `main` quits. -/
def resetBy (p : Pc) : List (BenchOp F) :=
  match p with
  | .main (.run (.shutdown _)) => (plain resetOps).map JtagOp.op
  | _ => (plain resetOps ++ [JtagOp.leave]).map JtagOp.op

/-- One element of a list that is done: the state after it and the list that is left. -/
def exec (s : Bench F) (rest : List (BenchOp F)) : BenchOp F → Bench F × List (BenchOp F)
  | .write w => ({ s with board := w.apply s.board }, rest)
  | .state c => ({ s with state := c }, rest)
  | .leave => (s, (plain (leaveOps s.state)).map JtagOp.op ++ rest)

/-- The mutex calls of `mbed_vprintf`: in the handler they return at once. -/
def lockPrint (s : Bench F) (t : Thread) : Option Shared :=
  if t = .handler then some s.shared
  else ((s.shared.mutex .term_write).lock t).map fun l =>
    { s.shared with mutex := update s.shared.mutex .term_write l }

def unlockPrint (s : Bench F) (t : Thread) : Shared :=
  if t = .handler then s.shared
  else { s.shared with
    mutex := update s.shared.mutex .term_write ((s.shared.mutex .term_write).unlock t) }

/-- The handler is not under way. -/
def handlerIdle (s : Bench F) : Bool :=
  match s.place .handler with
  | .code (.handler (.wait _)) _ => true
  | _ => false

/-- The context can be given the processor. -/
def ready (s : Bench F) (t : Thread) : Bool := !s.terminated t && (t = .handler || s.handlerIdle)

/-- The write the context makes in its next step. -/
def nextWrite (s : Bench F) (t : Thread) : Option (Write F) :=
  match s.place t with
  | .busy (.write w :: _) _ _ => some w
  | .failing (.write w :: _) => some w
  | .powerDown (w :: _) => some w
  | _ => none

variable [CFloat F]

/-- A context begins its next instruction, or the next scan of it. -/
def begin (boot : Boot) (s : Bench F) (t : Thread) (r : Reply) (p : Pc) (done : Nat) :
    Option (Bench F) :=
  match p.code boot with
  | .readMemory a next => s.call t r (readMemoryScans a) p done (next r.word)
  | .writeMemory a v next => s.call t r (writeMemoryScans a v) p done next
  | .scans l next => s.call t r l p done (next r.word)
  | .reset next => some (s.goto t (.busy (resetBy p) next 0))
  | .ack_intr level next => some (s.goto t (.busy [.write (.pin .ack_intr level)] next 0))
  | .outside .power_core next =>
    some (s.goto t (.busy ((power_core (CFloat.ofInt 1)).map .write) (next r.ans) 0))
  | .outside .resetCore next =>
    some (s.goto t (.busy [.write (.pin .CORERESETn false), .write (.pin .CORERESETn true)]
      (next r.ans) 0))
  | .power_down next => some (s.goto t (.busy (power_down.map .write) next 0))
  | .terminate u next =>
    some ({ s with terminated := update s.terminated u true }.goto t (.code next 0))
  | .panic _ => some (s.goto t .panicLock)
  | i => (i.exec t r.ans s.shared).map fun (sh, q) => { s with shared := sh }.goto t (.code q 0)

/-- One step of context `t`. -/
def stepOf (boot : Boot) (t : Thread) (r : Reply) (s : Bench F) : Option (Bench F) :=
  match s.place t with
  | .code p done => s.begin boot t r p done
  | .busy [] p done => some (s.goto t (.code p done))
  | .busy (op :: rest) p done => some ((s.exec rest op).1.goto t (.busy (s.exec rest op).2 p done))
  | .failing [] => some (s.goto t .panicLock)
  | .failing (op :: rest) => some ((s.exec rest op).1.goto t (.failing (s.exec rest op).2))
  | .panicLock => (s.lockPrint t).map fun sh => { s with shared := sh }.goto t .panicPrint
  | .panicPrint => some (s.goto t .panicUnlock)
  | .panicUnlock =>
    some ({ s with shared := s.unlockPrint t, begun := true }.goto t (.powerDown power_down))
  | .powerDown (w :: rest) =>
    some ({ s with board := w.apply s.board, dvddLow := s.dvddLow || w.onDVDD }.goto t
      (.powerDown rest))
  | .powerDown [] => some ({ s with finished := true }.goto t .exited)
  | .exited => none

end Bench

inductive BenchAct where
  | step (t : Thread) (r : Reply)
  /-- A rising edge of `req_intr`. -/
  | edge

/-- The state in which `enable_GPIO_intr` returns, on any board. -/
structure Bench.Fresh (s : Bench F) : Prop where
  mutex : ∀ m, s.shared.mutex m = none
  flag : ∀ t, s.shared.flag t = false
  place : ∀ t, s.place t = .code (Pc.start t) 0
  terminated : ∀ t, s.terminated t = false
  begun : s.begun = false
  dvddLow : s.dvddLow = false
  finished : s.finished = false

variable [CFloat F]

def bench (boot : Boot) : Machine (Bench F) BenchAct where
  start := Bench.Fresh
  step
    | .step t r, s => if s.ready t then s.stepOf boot t r else none
    | .edge, s =>
      some { s with shared := { s.shared with flag := update s.shared.flag .handler true } }

/-! ## The rule and the condition -/

/-- The inputs of the chip the program drives while it runs. -/
def inputs : List Pin := [.TCK, .TMS, .TDI, .PORESETn, .CORERESETn, .ack_intr]

/-- The core, memory, clock and sensor supplies. -/
def chipRails : List Rail :=
  [.COREVDD, .MEM1VDD, .MEM2VDD, .CLOCKVDD, .PLLAVDD, .RING_OSC_NBIAS, .SENSORVDD, .SENSORLOWVDD,
    .SENSORSTRESSVDD]

/-- Once a panic has set DVDD to 0 no input is high, and once it has finished no supply is up. -/
structure Bench.Lowering (s : Bench F) : Prop where
  inputs : s.dvddLow = true → ∀ p ∈ inputs, s.board.pin p = false
  rails : s.finished = true → ∀ r ∈ chipRails, s.board.rail r = CFloat.ofInt 0

/-- The write drives an input high or raises a supply. -/
def Write.Raises (w : Write F) : Prop :=
  (∃ p ∈ inputs, w = .pin p true) ∨ ∃ r ∈ chipRails, ∃ v, v ≠ CFloat.ofInt 0 ∧ w = .dac r.chan v

/-- Once a panic has begun `power_down` no step drives an input high or raises a supply, and DVDD is
set to 0 by a panic only while `ack_intr` is low. -/
def Undisturbed : BenchAct → Bench F → Prop
  | .step t _, s =>
    (s.begun = true → ∀ w, s.nextWrite t = some w → ¬ w.Raises) ∧
    ∀ w rest, s.place t = .powerDown (w :: rest) → w.onDVDD = true →
      s.board.pin .ack_intr = false
  | .edge, _ => True

/-! ## What a write can do -/

theorem Write.pin_low {w : Write F} (hw : ¬ w.Raises) {p : Pin} (hp : p ∈ inputs) {b : Board F}
    (h : b.pin p = false ∨ w = .pin p false) : (w.apply b).pin p = false := by
  cases w with
  | dac chan v =>
    rcases h with h | h
    · exact h
    · cases h
  | pin q level =>
    by_cases hq : q = p
    · subst hq
      show update b.pin q level q = false
      rw [update_self]
      cases level with
      | false => rfl
      | true => exact absurd (.inl ⟨q, hp, rfl⟩) hw
    · show update b.pin q level p = false
      rw [update_of_ne (Ne.symm hq)]
      rcases h with h | h
      · exact h
      · exact absurd (Write.pin.inj h).1 hq

theorem Write.rail_low {w : Write F} (hw : ¬ w.Raises) {r : Rail} (hr : r ∈ chipRails) {b : Board F}
    (h : b.rail r = CFloat.ofInt 0 ∨ w = .dac r.chan (CFloat.ofInt 0)) :
    (w.apply b).rail r = CFloat.ofInt 0 := by
  cases w with
  | pin p level =>
    rcases h with h | h
    · exact h
    · cases h
  | dac chan v =>
    by_cases hc : chan = r.chan
    · subst hc
      rw [Write.apply_rail, if_pos rfl]
      by_contra hv
      exact hw (.inr ⟨r, hr, v, hv, rfl⟩)
    · show update b.dac chan v r.chan = _
      rw [update_of_ne (Ne.symm hc)]
      rcases h with h | h
      · exact h
      · exact absurd (Write.dac.inj h).1 hc

/-- What `l` has lowered is low. -/
structure Settled (l : List (Write F)) (b : Board F) : Prop where
  pins : ∀ p ∈ inputs, .pin p false ∈ l → b.pin p = false
  rails : ∀ r ∈ chipRails, .dac r.chan (CFloat.ofInt 0) ∈ l → b.rail r = CFloat.ofInt 0

theorem Settled.nil (b : Board F) : Settled [] b := by
  constructor
  · intro p _ h
    cases h
  · intro r _ h
    cases h

theorem Settled.write {l : List (Write F)} {b : Board F} (h : Settled l b) {w : Write F}
    (hw : ¬ w.Raises) : Settled l (w.apply b) := by
  constructor
  · intro p hp hl
    exact w.pin_low hw hp (.inl (h.pins p hp hl))
  · intro r hr hl
    exact w.rail_low hw hr (.inl (h.rails r hr hl))

theorem Settled.snoc {l : List (Write F)} {b : Board F} (h : Settled l b) {w : Write F}
    (hw : ¬ w.Raises) : Settled (l ++ [w]) (w.apply b) := by
  constructor
  · intro p hp hl
    rcases List.mem_append.mp hl with hl | hl
    · exact w.pin_low hw hp (.inl (h.pins p hp hl))
    · exact w.pin_low hw hp (.inr (List.mem_singleton.mp hl).symm)
  · intro r hr hl
    rcases List.mem_append.mp hl with hl | hl
    · exact w.rail_low hw hr (.inl (h.rails r hr hl))
    · exact w.rail_low hw hr (.inr (List.mem_singleton.mp hl).symm)

/-! ## What a step can do -/

variable {boot : Boot} {s s' : Bench F} {t u : Thread} {r : Reply}

/-- A step outside `power_down`: at most the write the context is at is made, and the context does not
come into the middle of a `power_down`. -/
structure Bench.Elsewhere (s : Bench F) (t : Thread) (s' : Bench F) : Prop where
  board : s'.board = s.board ∨ ∃ w, s.nextWrite t = some w ∧ s'.board = w.apply s.board
  others : ∀ u, u ≠ t → s'.place u = s.place u
  place : ∀ l, s'.place t ≠ .powerDown l
  begun : s'.begun = s.begun
  dvddLow : s'.dvddLow = s.dvddLow
  finished : s'.finished = s.finished

omit [CFloat F] in
theorem Bench.Elsewhere.goto {p : Place F} (hp : ∀ l, p ≠ .powerDown l)
    (hb : s'.board = s.board ∨ ∃ w, s.nextWrite t = some w ∧ s'.board = w.apply s.board)
    (hplace : s'.place = s.place) (hbegun : s'.begun = s.begun) (hlow : s'.dvddLow = s.dvddLow)
    (hfin : s'.finished = s.finished) : s.Elsewhere t (s'.goto t p) := by
  refine ⟨hb, fun u hu => ?_, fun l => ?_, hbegun, hlow, hfin⟩
  · show update s'.place t p u = s.place u
    rw [update_of_ne hu, hplace]
  · show update s'.place t p t ≠ _
    rw [update_self]
    exact hp l

omit [CFloat F] in
theorem Bench.Elsewhere.stay {p : Place F} (hp : ∀ l, p ≠ .powerDown l) :
    s.Elsewhere t (s.goto t p) :=
  .goto hp (.inl rfl) rfl rfl rfl rfl

omit [CFloat F] in
theorem Bench.call_elsewhere {l : List Scan} {p next : Pc} {done : Nat}
    (h : s.call t r l p done next = some s') : s.Elsewhere t s' := by
  obtain ⟨sc, -, rfl⟩ := Option.map_eq_some_iff.mp h
  split
  · exact .stay (by simp)
  · split
    · exact .stay (by simp)
    · exact .stay (by simp)

theorem Bench.begin_elsewhere {p : Pc} {done : Nat} (h : s.begin boot t r p done = some s') :
    s.Elsewhere t s' := by
  unfold begin at h
  split at h
  case h_1 | h_2 | h_3 => exact call_elsewhere h
  case h_4 | h_5 | h_6 | h_7 | h_8 => cases h; exact .stay (by simp)
  case h_9 => cases h; exact .goto (by simp) (.inl rfl) rfl rfl rfl rfl
  case h_10 => cases h; exact .stay (by simp)
  case h_11 =>
    obtain ⟨⟨sh, q⟩, -, rfl⟩ := Option.map_eq_some_iff.mp h
    exact .goto (by simp) (.inl rfl) rfl rfl rfl rfl

omit [CFloat F] in
/-- One element of a list makes at most the write it is. -/
theorem Bench.exec_board (s : Bench F) (rest : List (BenchOp F)) (op : BenchOp F) :
    ((s.exec rest op).1.board = s.board ∨ ∃ w, op = .write w ∧ (s.exec rest op).1.board = w.apply s.board) ∧
      (s.exec rest op).1.place = s.place ∧ (s.exec rest op).1.begun = s.begun ∧
      (s.exec rest op).1.dvddLow = s.dvddLow ∧ (s.exec rest op).1.finished = s.finished := by
  cases op with
  | write w => exact ⟨.inr ⟨w, rfl, rfl⟩, rfl, rfl, rfl, rfl⟩
  | state c => exact ⟨.inl rfl, rfl, rfl, rfl, rfl⟩
  | leave => exact ⟨.inl rfl, rfl, rfl, rfl, rfl⟩

/-- What a step of a context comes down to. -/
theorem Bench.stepOf_cases (h : s.stepOf boot t r = some s') :
    s.Elsewhere t s' ∨
    (s.place t = .panicUnlock ∧
      s' = { s with shared := s.unlockPrint t, begun := true }.goto t (.powerDown power_down)) ∨
    (∃ w rest, s.place t = .powerDown (w :: rest) ∧
      s' = { s with board := w.apply s.board, dvddLow := s.dvddLow || w.onDVDD }.goto t
        (.powerDown rest)) ∨
    (s.place t = .powerDown [] ∧ s' = { s with finished := true }.goto t .exited) := by
  unfold stepOf at h
  split at h
  · exact .inl (begin_elsewhere h)
  · cases h
    exact .inl (.stay (by simp))
  · rename_i op rest p done hp
    cases h
    obtain ⟨hb, hplace, hbegun, hlow, hfin⟩ := s.exec_board rest op
    refine .inl (.goto (by simp) (hb.imp id ?_) hplace hbegun hlow hfin)
    rintro ⟨w, rfl, hw⟩
    exact ⟨w, by rw [nextWrite, hp], hw⟩
  · cases h
    exact .inl (.stay (by simp))
  · rename_i op rest hp
    cases h
    obtain ⟨hb, hplace, hbegun, hlow, hfin⟩ := s.exec_board rest op
    refine .inl (.goto (by simp) (hb.imp id ?_) hplace hbegun hlow hfin)
    rintro ⟨w, rfl, hw⟩
    exact ⟨w, by rw [nextWrite, hp], hw⟩
  · obtain ⟨sh, -, rfl⟩ := Option.map_eq_some_iff.mp h
    exact .inl (.goto (by simp) (.inl rfl) rfl rfl rfl rfl)
  · cases h
    exact .inl (.stay (by simp))
  · rename_i hp
    cases h
    exact .inr (.inl ⟨hp, rfl⟩)
  · rename_i w rest hp
    cases h
    exact .inr (.inr (.inl ⟨w, rest, hp, rfl⟩))
  · rename_i hp
    cases h
    exact .inr (.inr (.inr ⟨hp, rfl⟩))
  · cases h

/-! ## The invariant -/

/-- A context in `power_down` has lowered what it has passed, and it is still low; and what has to hold
once DVDD is down, or once it has finished, does. -/
structure Bench.Settling (s : Bench F) : Prop where
  passed : ∀ t l, s.place t = .powerDown l →
    s.begun = true ∧ ∃ done, done ++ l = power_down ∧ Settled done s.board
  inputs : s.dvddLow = true → s.begun = true ∧ ∀ p ∈ inputs, s.board.pin p = false
  rails : s.finished = true → s.begun = true ∧ ∀ r ∈ chipRails, s.board.rail r = CFloat.ofInt 0

/-- A write that raises nothing, by any context, once a `power_down` has begun. -/
theorem Bench.Settling.board (hs : s.Settling) {b : Board F}
    (hb : b = s.board ∨ ∃ w : Write F, (s.begun = true → ¬ w.Raises) ∧ b = w.apply s.board) :
    ({ s with board := b } : Bench F).Settling := by
  rcases hb with rfl | ⟨w, hw, rfl⟩
  · exact hs
  · constructor
    · intro t l ht
      obtain ⟨hbegun, done, hdone, hset⟩ := hs.passed t l ht
      exact ⟨hbegun, done, hdone, hset.write (hw hbegun)⟩
    · intro hlow
      obtain ⟨hbegun, hpins⟩ := hs.inputs hlow
      exact ⟨hbegun, fun p hp => w.pin_low (hw hbegun) hp (.inl (hpins p hp))⟩
    · intro hfin
      obtain ⟨hbegun, hrails⟩ := hs.rails hfin
      exact ⟨hbegun, fun r hr => w.rail_low (hw hbegun) hr (.inl (hrails r hr))⟩

/-- The inputs `power_down` lowers are lowered before DVDD. -/
theorem zeroed_before_dvdd {done rest : List (Write F)} {w : Write F}
    (h : done ++ w :: rest = power_down) (hw : w.onDVDD = true) {p : Pin} (hp : p ∈ inputs)
    (hack : p ≠ .ack_intr) : Write.pin p false ∈ done := by
  have hmem : (Write.pin p false : Write F) ∈ zeroed.map (fun p => .pin p false) := by
    refine List.mem_map.mpr ⟨p, ?_, rfl⟩
    revert hp hack
    cases p <;> decide
  have hsplit : done ++ w :: rest =
      zeroed.map (fun p => .pin p false) ++ (zero_chans lowered ++ power_down_end) := by
    rw [h, power_down, power_down_begin, List.append_assoc]
  rcases List.append_eq_append_iff.mp hsplit with ⟨l, hz, hl⟩ | ⟨l, hd, -⟩
  · -- `done` ends among the pins, so the write to DVDD would be one of them
    cases l with
    | nil =>
      rw [hz, List.append_nil] at hmem
      exact hmem
    | cons w' l =>
      obtain ⟨rfl, -⟩ := List.cons.inj hl
      have hwz : w ∈ zeroed.map (fun p => (Write.pin p false : Write F)) := by
        rw [hz]
        exact List.mem_append_right _ List.mem_cons_self
      obtain ⟨q, -, rfl⟩ := List.mem_map.mp hwz
      cases hw
  · rw [hd]
    exact List.mem_append_left _ hmem

/-- `power_down` lowers every supply of the chip. -/
theorem lowers_chipRails {r : Rail} (hr : r ∈ chipRails) :
    Write.dac r.chan (CFloat.ofInt 0 : F) ∈ (power_down : List (Write F)) := by
  have hlow : r ∈ lowered := by
    revert hr
    cases r <;> decide
  refine List.mem_append_left _ (List.mem_append_right _ (List.mem_flatMap.mpr
    ⟨(r, CFloat.ofInt 0), List.mem_map.mpr ⟨r, hlow, rfl⟩, ?_⟩))
  simp [power_chan]

omit [CFloat F] in
theorem Bench.goto_place (s : Bench F) (t : Thread) (p : Place F) (u : Thread) :
    (s.goto t p).place u = if u = t then p else s.place u := by
  show update s.place t p u = _
  rw [update_apply]

/-- A step outside `power_down` that raises nothing. -/
theorem Bench.Settling.elsewhere (hs : s.Settling) (h : s.Elsewhere t s')
    (hw : s.begun = true → ∀ w, s.nextWrite t = some w → ¬ w.Raises) : s'.Settling := by
  have hb := hs.board (b := s'.board) (h.board.imp id fun ⟨w, hn, hb⟩ =>
    ⟨w, fun hbegun => hw hbegun w hn, hb⟩)
  constructor
  · intro u l hu
    by_cases hut : u = t
    · subst hut
      exact absurd hu (h.place l)
    · rw [h.others u hut] at hu
      rw [h.begun]
      exact hb.passed u l hu
  · rw [h.begun, h.dvddLow]
    exact hb.inputs
  · rw [h.begun, h.finished]
    exact hb.rails

/-- A panic begins `power_down`. -/
theorem Bench.Settling.begins (hs : s.Settling) (sh : Shared) :
    (({ s with shared := sh, begun := true } : Bench F).goto t (.powerDown power_down)).Settling := by
  refine ⟨fun u l hu => ?_, fun h => ⟨rfl, (hs.inputs h).2⟩, fun h => ⟨rfl, (hs.rails h).2⟩⟩
  refine ⟨rfl, ?_⟩
  rw [goto_place] at hu
  split at hu
  · cases hu
    exact ⟨[], rfl, .nil _⟩
  · exact (hs.passed u l hu).2

/-- One write of a panic's `power_down`. -/
theorem Bench.Settling.lowers (hs : s.Settling) {w : Write F} {rest : List (Write F)}
    (ht : s.place t = .powerDown (w :: rest)) (hw : ¬ w.Raises)
    (hack : w.onDVDD = true → s.board.pin .ack_intr = false) :
    (({ s with board := w.apply s.board, dvddLow := s.dvddLow || w.onDVDD } : Bench F).goto t
      (.powerDown rest)).Settling := by
  obtain ⟨hbegun, done, hdone, hset⟩ := hs.passed t _ ht
  have hb := hs.board (b := w.apply s.board) (.inr ⟨w, fun _ => hw, rfl⟩)
  refine ⟨fun u l hu => ?_, fun h => ⟨hbegun, fun p hp => ?_⟩, hb.rails⟩
  · rw [goto_place] at hu
    split at hu
    · cases hu
      exact ⟨hbegun, done ++ [w], by rw [← hdone, List.append_assoc]; rfl, hset.snoc hw⟩
    · exact hb.passed u l hu
  · rcases Bool.or_eq_true_iff.mp h with h | h
    · exact (hb.inputs h).2 p hp
    · by_cases hp' : p = .ack_intr
      · subst hp'
        exact w.pin_low hw hp (.inl (hack h))
      · exact w.pin_low hw hp (.inl (hset.pins p hp (zeroed_before_dvdd hdone h hp hp')))

/-- A panic's `power_down` has made its last write. -/
theorem Bench.Settling.finishes (hs : s.Settling) (ht : s.place t = .powerDown []) :
    (({ s with finished := true } : Bench F).goto t .exited).Settling := by
  obtain ⟨hbegun, done, hdone, hset⟩ := hs.passed t _ ht
  rw [List.append_nil] at hdone
  refine ⟨fun u l hu => ?_, hs.inputs, fun _ => ⟨hbegun, fun r hr => ?_⟩⟩
  · rw [goto_place] at hu
    split at hu
    · cases hu
    · exact hs.passed u l hu
  · exact hset.rails r hr (by rw [hdone]; exact lowers_chipRails hr)

theorem bench_settling (hr : (bench boot).ReachIf Undisturbed s) : s.Settling := by
  refine hr.invariant (I := Bench.Settling) ?_ ?_
  · intro s (hf : s.Fresh)
    refine ⟨fun t l ht => ?_, fun h => ?_, fun h => ?_⟩
    · rw [hf.place] at ht
      cases ht
    · rw [hf.dvddLow] at h
      cases h
    · rw [hf.finished] at h
      cases h
  · intro a s s' hs hok h
    cases a with
    | edge =>
      cases h
      exact ⟨hs.passed, hs.inputs, hs.rails⟩
    | step t r =>
      simp only [bench] at h
      split at h
      · rcases Bench.stepOf_cases h with h | ⟨-, rfl⟩ | ⟨w, rest, ht, rfl⟩ | ⟨ht, rfl⟩
        · exact hs.elsewhere h hok.1
        · exact hs.begins _
        · refine hs.lowers ht (hok.1 (hs.passed t _ ht).1 w ?_) (hok.2 w rest ht)
          rw [Bench.nextWrite, ht]
        · exact hs.finishes ht
      · cases h

/-- **The inputs are never above the lowered supply**, in every run in which nothing is raised once a
panic has begun `power_down` and DVDD goes down with `ack_intr` low: after that TCK, TMS, TDI, the
resets and `ack_intr` are low, and once the `power_down` has finished no core, memory, clock or
sensor supply is up. -/
theorem lowering_undisturbed (hr : (bench boot).ReachIf Undisturbed s) : s.Lowering := by
  have hs := bench_settling hr
  exact ⟨fun h => (hs.inputs h).2, fun h => (hs.rails h).2⟩

/-! ## Runs -/

/-- The context is at `p`, having moved nothing but pins and the `state` field since `s`. -/
def Bench.at (s : Bench F) (t : Thread) (p : Place F) (b : Board F) (c : Char) : Bench F :=
  { s with board := b, state := c, place := update s.place t p }

omit [CFloat F] in
theorem Bench.ready_at {p : Place F} {b : Board F} {c : Char} (h : s.ready t = true) :
    (s.at t p b c).ready t = true := by
  by_cases ht : t = .handler
  · subst ht
    simpa [ready, Bench.at] using h
  · have hplace : (s.at t p b c).place .handler = s.place .handler := update_of_ne (Ne.symm ht) _ _
    have hidle : (s.at t p b c).handlerIdle = s.handlerIdle := by
      rw [handlerIdle, handlerIdle, hplace]
    show (!s.terminated t && (decide (t = .handler) || (s.at t p b c).handlerIdle)) = true
    rw [hidle]
    exact h

omit [CFloat F] in
theorem Bench.at_at {p q : Place F} {b d : Board F} {c e : Char} :
    (s.at t p b c).at t q d e = s.at t q d e := by
  simp [Bench.at]

/-- A step of a context that can be given the processor. -/
theorem Bench.reach_step (hs : (bench boot).Reach s) (hready : s.ready t = true)
    (h : s.stepOf boot t r = some s') : (bench boot).Reach s' := by
  refine .step (a := .step t r) hs trivial ?_
  simp only [bench, hready, if_true]
  exact h

/-- An answer without anything in it. -/
def Reply.none : Reply := ⟨.empty, 0, 0, Option.none⟩

/-- Where a context with a list to do is, and that it does it. -/
def Works (boot : Boot) (t : Thread) (wrap : List (BenchOp F) → Place F) : Prop :=
  ∀ (s : Bench F) op rest, s.place t = wrap (op :: rest) →
    s.stepOf boot t .none = some ((s.exec rest op).1.goto t (wrap (s.exec rest op).2))

theorem works_busy (p : Pc) (done : Nat) : Works (F := F) boot t (.busy · p done) := by
  intro s op rest ht
  simp only [Bench.stepOf, ht]

theorem works_failing : Works (F := F) boot t .failing := by
  intro s op rest ht
  simp only [Bench.stepOf, ht]

/-- The writes at the head of a list are made. -/
theorem Bench.reach_writes {wrap : List (BenchOp F) → Place F} (hwrap : Works boot t wrap)
    {rest : List (BenchOp F)} (l : List JtagWrite) :
    ∀ s : Bench F, (bench boot).Reach s → s.ready t = true →
      s.place t = wrap ((plain l).map JtagOp.op ++ rest) →
      ∃ b c, (bench boot).Reach (s.at t (wrap rest) b c) := by
  induction l with
  | nil =>
    intro s hs _ ht
    refine ⟨s.board, s.state, ?_⟩
    have : s.at t (wrap rest) s.board s.state = s := by
      rw [Bench.at, ← show s.place t = wrap rest from ht, update_eq_self]
    rwa [this]
  | cons o l ih =>
    intro s hs hready ht
    obtain ⟨b, c, hstep⟩ : ∃ b c, s.stepOf boot t .none =
        some (s.at t (wrap ((plain l).map JtagOp.op ++ rest)) b c) := by
      have hcons : s.place t = wrap ((JtagOp.write o).op :: ((plain l).map JtagOp.op ++ rest)) := by
        rw [ht]
        rfl
      rw [hwrap s _ _ hcons]
      cases o <;> exact ⟨_, _, rfl⟩
    obtain ⟨b', c', h⟩ := ih _ (reach_step hs hready hstep) (ready_at hready) (update_self ..)
    exact ⟨b', c', by rwa [at_at] at h⟩

/-- A list is done to its end. -/
theorem Bench.reach_busy {p : Pc} {done : Nat} (l : List JtagOp) :
    ∀ s : Bench F, (bench boot).Reach s → s.ready t = true →
      s.place t = .busy (l.map JtagOp.op) p done →
      ∃ b c, (bench boot).Reach (s.at t (.code p done) b c) := by
  induction l with
  | nil =>
    intro s hs hready ht
    refine ⟨s.board, s.state, reach_step hs hready (r := .none) ?_⟩
    rw [stepOf, ht]
    rfl
  | cons o l ih =>
    intro s hs hready ht
    obtain ⟨b, c, h⟩ : ∃ b c, (bench boot).Reach (s.at t (.busy (l.map JtagOp.op) p done) b c) := by
      cases o with
      | write o => exact reach_writes (works_busy p done) [o] s hs hready ht
      | leave =>
        have hstep : s.stepOf boot t .none = some (s.at t (.busy ((plain (leaveOps s.state)).map
            JtagOp.op ++ l.map JtagOp.op) p done) s.board s.state) := by
          have hcons : s.place t = .busy (.leave :: l.map JtagOp.op) p done := ht
          rw [stepOf, hcons]
          rfl
        obtain ⟨b, c, h⟩ := reach_writes (works_busy p done) _ _ (reach_step hs hready hstep)
          (ready_at hready) (update_self ..)
        exact ⟨b, c, by rwa [at_at] at h⟩
    obtain ⟨b', c', h'⟩ := ih _ h (ready_at hready) (update_self ..)
    exact ⟨b', c', by rwa [at_at] at h'⟩

/-- The scans of a call are made to the last. -/
theorem Bench.reach_scans {p : Pc} {l : List Scan} {next : Word → Pc}
    (hcode : p.code boot = .scans l next) (n : Nat) :
    ∀ (s : Bench F) (done : Nat), (bench boot).Reach s → s.ready t = true →
      s.place t = .code p done → done + (n + 1) = l.length →
      ∃ b c, (bench boot).Reach (s.at t (.code (next 0) 0) b c) := by
  have hcall : ∀ (s : Bench F) (done : Nat), s.place t = .code p done →
      s.stepOf boot t .none = s.call t .none l p done (next 0) := by
    intro s done ht
    simp only [stepOf, ht, begin, hcode]
    rfl
  induction n with
  | zero =>
    intro s done hs hready ht hlen
    have hstep : s.stepOf boot t .none = some (s.at t
        (.busy ((l[done].ops 0).map JtagOp.op) (next 0) 0) s.board s.state) := by
      rw [hcall s done ht, call, List.getElem?_eq_getElem (by omega)]
      show some (if done + 1 = l.length then _ else _) = _
      rw [if_pos (by omega)]
      rfl
    obtain ⟨b, c, h⟩ := reach_busy _ _ (reach_step hs hready hstep) (ready_at hready) (update_self ..)
    exact ⟨b, c, by rwa [at_at] at h⟩
  | succ n ih =>
    intro s done hs hready ht hlen
    have hstep : s.stepOf boot t .none = some (s.at t
        (.busy ((l[done].ops 0).map JtagOp.op) p (done + 1)) s.board s.state) := by
      rw [hcall s done ht, call, List.getElem?_eq_getElem (by omega)]
      show some (if done + 1 = l.length then _ else _) = _
      rw [if_neg (by omega)]
      rfl
    obtain ⟨b, c, h⟩ := reach_busy _ _ (reach_step hs hready hstep) (ready_at hready) (update_self ..)
    rw [at_at] at h
    obtain ⟨b', c', h'⟩ := ih _ (done + 1) h (ready_at hready) (update_self ..) (by omega)
    exact ⟨b', c', by rwa [at_at] at h'⟩

/-- The first writes of a panic's `power_down`. -/
theorem Bench.reach_powerDown {rest : List (Write F)} (l : List (Write F)) :
    ∀ s : Bench F, (bench boot).Reach s → s.ready t = true → s.place t = .powerDown (l ++ rest) →
      (bench boot).Reach { s.at t (.powerDown rest) (Board.run l s.board) s.state with
        dvddLow := s.dvddLow || l.any Write.onDVDD } := by
  induction l with
  | nil =>
    intro s hs _ ht
    have : { s.at t (.powerDown rest) (Board.run [] s.board) s.state with
        dvddLow := s.dvddLow || ([] : List (Write F)).any Write.onDVDD } = s := by
      rw [Bench.at, ← show s.place t = .powerDown rest from ht, update_eq_self]
      simp [Board.run]
    rwa [this]
  | cons w l ih =>
    intro s hs hready ht
    have hstep : s.stepOf boot t .none = some { s.at t (.powerDown (l ++ rest)) (w.apply s.board)
        s.state with dvddLow := s.dvddLow || w.onDVDD } := by
      have hcons : s.place t = .powerDown (w :: (l ++ rest)) := ht
      simp only [stepOf, hcons]
      rfl
    have h := ih _ (reach_step hs hready hstep) (ready_at (b := w.apply s.board) (c := s.state) hready)
      (update_self ..)
    simp only [Bench.at, update_idem] at h ⊢
    rwa [List.any_cons, ← Bool.or_assoc]

/-- The board as `init_hw` leaves it. -/
def Board.ready : Board ℚ :=
  Board.run (power_down ++ power_up 1 ++ [.pin .PORESETn false, .pin .CORERESETn false,
    .pin .PORESETn true, .pin .CORERESETn true, .pin .scan_data_in true, .pin .scan_phi true]) Board.off

def Bench.fresh : Bench ℚ where
  board := Board.ready
  state := 'n'
  shared := (Host.fresh (fun _ => 0) false false).shared
  place t := .code (Pc.start t) 0
  terminated _ := false
  begun := false
  dvddLow := false
  finished := false

theorem Bench.fresh_fresh : Bench.fresh.Fresh :=
  ⟨fun _ => rfl, fun _ => rfl, fun _ => rfl, fun _ => rfl, rfl, rfl, rfl⟩

/-- A scan answered so that the driver panics. -/
def Reply.bad : Reply := { Reply.none with fails := some false }

/-- The contexts of the run that follows; the others have not moved. -/
def scenePlace (m d h : Place ℚ) : Thread → Place ℚ
  | .main => m
  | .dispatch => d
  | .handler => h
  | t => .code (Pc.start t) 0

/-- A state of that run. -/
def scene (b : Board ℚ) (c : Char) (sh : Shared) (begun low : Bool) (m d h : Place ℚ) : Bench ℚ :=
  ⟨b, c, sh, scenePlace m d h, fun _ => false, begun, low, false⟩

section Scene

variable {b d : Board ℚ} {c e : Char} {sh : Shared} {g l : Bool} {m m' n n' h h' : Place ℚ}

theorem scene_main : (scene b c sh g l m n h).at .main m' d e = scene d e sh g l m' n h := by
  have hplace : update (scenePlace m n h) .main m' = scenePlace m' n h := by
    funext t
    cases t <;> simp [scenePlace]
  rw [Bench.at, scene, hplace]
  rfl

theorem scene_dispatch : (scene b c sh g l m n h).at .dispatch n' d e = scene d e sh g l m n' h := by
  have hplace : update (scenePlace m n h) .dispatch n' = scenePlace m n' h := by
    funext t
    cases t <;> simp [scenePlace]
  rw [Bench.at, scene, hplace]
  rfl

theorem scene_handler : (scene b c sh g l m n h).at .handler h' d e = scene d e sh g l m n h' := by
  have hplace : update (scenePlace m n h) .handler h' = scenePlace m n h' := by
    funext t
    cases t <;> simp [scenePlace]
  rw [Bench.at, scene, hplace]
  rfl

end Scene

/-- A request comes: the handler powers the debug port up and signals `dispatch_loop`. -/
theorem scene_requested : ∃ b c sh, sh.mutex = (fun _ => none) ∧ sh.flag .dispatch = true ∧
    (bench .empty).Reach (scene b c sh false false (.code (Pc.start .main) 0)
      (.code (Pc.start .dispatch) 0) (.code (.handler (.wait false)) 0)) := by
  have hfresh : Bench.fresh = scene Board.ready 'n' Bench.fresh.shared false false
      (.code (Pc.start .main) 0) (.code (Pc.start .dispatch) 0) (.code (Pc.start .handler) 0) := by
    have hplace : Bench.fresh.place = scenePlace (.code (Pc.start .main) 0)
        (.code (Pc.start .dispatch) 0) (.code (Pc.start .handler) 0) := by
      funext t
      cases t <;> rfl
    rw [scene, ← hplace]
    rfl
  have h₀ : (bench .empty).Reach Bench.fresh := .start Bench.fresh_fresh
  rw [hfresh] at h₀
  let sh₁ : Shared := { Bench.fresh.shared with flag := update Bench.fresh.shared.flag .handler true }
  let sh₂ : Shared := { sh₁ with
    flag := update sh₁.flag .handler false, iter := update sh₁.iter .handler (sh₁.iter .handler + 1) }
  let sh₃ : Shared := { sh₂ with
    flag := update sh₂.flag .dispatch true, log := .signal .handler .dispatch :: sh₂.log }
  have h₁ : (bench .empty).Reach (scene Board.ready 'n' sh₁ false false (.code (Pc.start .main) 0)
      (.code (Pc.start .dispatch) 0) (.code (Pc.start .handler) 0)) :=
    .step (a := .edge) h₀ trivial rfl
  have h₂ := Bench.reach_step (t := .handler) (r := .none) h₁ rfl
    (show _ = some ((scene Board.ready 'n' sh₂ false false _ _ _).at .handler
      (.code (.handler .reset) 0) Board.ready 'n') from rfl)
  rw [scene_handler] at h₂
  have h₃ := Bench.reach_step (t := .handler) (r := .none) h₂ rfl
    (show _ = some ((scene Board.ready 'n' sh₂ false false _ _ _).at .handler
      (.busy ((plain resetOps ++ [JtagOp.leave]).map JtagOp.op) (.handler .powerup) 0) Board.ready 'n')
      from rfl)
  rw [scene_handler] at h₃
  obtain ⟨b₄, c₄, h₄⟩ := Bench.reach_busy (t := .handler) (plain resetOps ++ [.leave]) _ h₃ rfl rfl
  rw [scene_handler] at h₄
  obtain ⟨b₅, c₅, h₅⟩ := Bench.reach_scans (t := .handler)
    (show (Pc.handler .powerup).code .empty = .scans PowerupDAPScans fun _ => .handler .signal from rfl)
    35 _ 0 h₄ rfl rfl rfl
  rw [scene_handler] at h₅
  have h₆ := Bench.reach_step (t := .handler) (r := .none) h₅ rfl
    (show _ = some ((scene b₅ c₅ sh₃ false false _ _ _).at .handler
      (.code (.handler (.wait false)) 0) b₅ c₅) from rfl)
  rw [scene_handler] at h₆
  exact ⟨b₅, c₅, sh₃, rfl, rfl, h₆⟩

/-- `dispatch_loop` wakes up, locks the port and panics on its first scan. -/
theorem scene_panicked : ∃ b c sh,
    (bench .empty).Reach (scene b c sh true false (.code (Pc.start .main) 0)
      (.powerDown power_down) (.code (.handler (.wait false)) 0)) := by
  obtain ⟨b, c, sh, hmutex, hflag, h⟩ := scene_requested
  let sh₁ : Shared := { sh with
    flag := update sh.flag .dispatch false, iter := update sh.iter .dispatch (sh.iter .dispatch + 1) }
  let sh₂ : Shared := { sh₁ with mutex := update sh₁.mutex .JTAG (some (.dispatch, 1)) }
  let sh₃ : Shared := { sh₂ with mutex := update sh₂.mutex .term_write (some (.dispatch, 1)) }
  have h₁ := Bench.reach_step (t := .dispatch) (r := .none) h rfl
    (show _ = some ((scene b c sh₁ false false _ _ _).at .dispatch (.code (.dispatch .lock) 0) b c) by
      show Option.map _ (if sh.flag .dispatch then _ else none) = _
      rw [hflag]
      rfl)
  rw [scene_dispatch] at h₁
  have h₂ := Bench.reach_step (t := .dispatch) (r := .none) h₁ rfl
    (show _ = some ((scene b c sh₂ false false _ _ _).at .dispatch (.code (.dispatch .readType) 0) b c) by
      show Option.map _ (Option.map _ ((sh.mutex .JTAG).lock .dispatch)) = _
      rw [hmutex]
      rfl)
  rw [scene_dispatch] at h₂
  have h₃ := Bench.reach_step (t := .dispatch) (r := .bad) h₂ rfl
    (show _ = some ((scene b c sh₂ false false _ _ _).at .dispatch
      (.failing ((plain (setStateOps 'i' ++ shiftBitsOps (JTAG_DPACC.setWidth 32) 4)).map JtagOp.op ++ []))
      b c) by
        rw [List.append_nil]
        rfl)
  rw [scene_dispatch] at h₃
  obtain ⟨b₄, c₄, h₄⟩ := Bench.reach_writes (t := .dispatch) works_failing _ _ h₃ rfl rfl
  rw [scene_dispatch] at h₄
  have h₅ := Bench.reach_step (t := .dispatch) (r := .none) h₄ rfl
    (show _ = some ((scene b₄ c₄ sh₂ false false _ _ _).at .dispatch .panicLock b₄ c₄) from rfl)
  rw [scene_dispatch] at h₅
  have h₆ := Bench.reach_step (t := .dispatch) (r := .none) h₅ rfl
    (show _ = some ((scene b₄ c₄ sh₃ false false _ _ _).at .dispatch .panicPrint b₄ c₄) by
      show Option.map _ (Option.map _ ((sh.mutex .term_write).lock .dispatch)) = _
      rw [hmutex]
      rfl)
  rw [scene_dispatch] at h₆
  have h₇ := Bench.reach_step (t := .dispatch) (r := .none) h₆ rfl
    (show _ = some ((scene b₄ c₄ sh₃ false false _ _ _).at .dispatch .panicUnlock b₄ c₄) from rfl)
  rw [scene_dispatch] at h₇
  have h₈ := Bench.reach_step (t := .dispatch) (r := .none) h₇ rfl
    (show _ = some ((scene b₄ c₄ _ true false _ _ _).at .dispatch (.powerDown power_down) b₄ c₄) from rfl)
  rw [scene_dispatch] at h₈
  exact ⟨b₄, c₄, _, h₈⟩

/-- While `dispatch_loop` lowers the supplies `main` goes on: with DVDD at 0 it drives TMS high. -/
theorem tms_above_dvdd : ∃ s, (bench (F := ℚ) .empty).Reach s ∧ s.dvddLow = true ∧
    s.board.pin .TMS = true ∧ ¬ s.Lowering := by
  obtain ⟨b, c, sh, h⟩ := scene_panicked
  have h₁ := Bench.reach_powerDown (t := .dispatch) power_down_begin _ h rfl rfl
  rw [scene_dispatch] at h₁
  have hlow : (power_down_begin : List (Write ℚ)).any Write.onDVDD = true := by decide +kernel
  have h₂ : (bench .empty).Reach (scene (Board.run power_down_begin b) c sh true true
      (.code (Pc.start .main) 0) (.powerDown power_down_end) (.code (.handler (.wait false)) 0)) := by
    rw [hlow] at h₁
    exact h₁
  have h₃ := Bench.reach_step (t := .main) (r := .none) h₂ rfl
    (show _ = some ((scene _ c sh true true _ _ _).at .main (.busy
      ((plain resetOps ++ [JtagOp.leave]).map JtagOp.op) (.main (.run .powerup)) 0) _ c) from rfl)
  rw [scene_main] at h₃
  have h₄ := Bench.reach_step (t := .main) (r := .none) h₃ rfl rfl
  refine ⟨_, h₄, rfl, rfl, fun hl => ?_⟩
  have htms : true = false := hl.inputs rfl .TMS (by decide)
  cases htms

instance (w : Write ℚ) : Decidable w.Raises :=
  match w with
  | .pin p level => decidable_of_iff (p ∈ inputs ∧ level = true) (by simp [Write.Raises])
  | .dac chan v => decidable_of_iff (v ≠ 0 ∧ ∃ r ∈ chipRails, chan = r.chan) (by
      simp only [Write.Raises, reduceCtorEq, and_false, exists_false, false_or, Write.dac.injEq]
      constructor
      · rintro ⟨hv, r, hr, hc⟩
        exact ⟨r, hr, v, hv, hc, rfl⟩
      · rintro ⟨r, hr, _, hv, hc, rfl⟩
        exact ⟨hv, r, hr, hc⟩)

/-- The condition on a step as a test. -/
def Bench.undisturbed (s : Bench ℚ) (t : Thread) : Bool :=
  (!s.begun || (s.nextWrite t).all fun w => !decide w.Raises) &&
    match s.place t with
    | .powerDown (w :: _) => !w.onDVDD || !s.board.pin .ack_intr
    | _ => true

instance (a : BenchAct) (s : Bench ℚ) : Decidable (Undisturbed a s) :=
  match a with
  | .edge => .isTrue trivial
  | .step t _ => decidable_of_iff (s.undisturbed t = true) (by
      simp only [Bench.undisturbed, Bool.and_eq_true, Bool.or_eq_true, Bool.not_eq_true',
        Option.all_eq_true, decide_eq_false_iff_not, Undisturbed]
      refine and_congr ?_ ?_
      · cases s.begun <;> simp
      · cases hp : s.place t with
        | powerDown l =>
          cases l with
          | nil => simp
          | cons w l => cases hw : w.onDVDD <;> simp [hw]
        | _ => simp)

/-- The steps of `main` from its start to the end of a panic on its first scan. -/
def mainPanics : List BenchAct :=
  List.replicate 34 (.step .main .none) ++ .step .main .bad :: List.replicate 94 (.step .main .none)

/-- `main` panics and nothing else runs. -/
theorem lowering_undisturbed_alone : ∃ s, (bench (F := ℚ) .empty).ReachIf Undisturbed s ∧
    s.finished = true ∧ s.dvddLow = true ∧ s.Lowering := by
  obtain ⟨s, hs, hp⟩ := Machine.exists_reach_of_run (M := (bench .empty).restrict Undisturbed)
    (p := fun s => s.finished && s.dvddLow) Bench.fresh_fresh mainPanics (by decide +kernel)
  have hr := Machine.ReachIf.of_restrict hs
  simp only [Bool.and_eq_true] at hp
  exact ⟨s, hr, hp.1, hp.2, lowering_undisturbed hr⟩

end Expedition
