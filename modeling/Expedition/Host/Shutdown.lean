import Expedition.Host.Scans

/-!
# The way to `power_down`

The whole program with `panic` written out, for its mutexes.  A memory access, a call of other scans
or a `reset` is one step here, and each of them may fail instead and enter `panic`.

* `panic` prints under `term_write_mutex`, with whatever the context holds already, calls `power_down`
  and exits; the handler, where the calls of a mutex return at once, prints without.
* A thread that is terminated takes no more steps and keeps its mutexes.
* A context that has reached `exit` takes no more steps; that the others stop too is not used.
* The answer to `mbed_scanf` is open, so `main` may leave its command loop whenever it reads a line.
* `LockOk` — what a run has to avoid so that neither a panic nor the quit path is blocked by a mutex.
* `system_safe` — what such runs keep.
-/

namespace Expedition

open Function

/-! ## The system -/

/-- The statements of `panic`; the first three are `mbed_vprintf`. -/
inductive PanicStage where
  | lock
  | print
  | unlock
  | powerDown
  | exit
  deriving DecidableEq, Repr

/-- Where a context is: in the program, or in a `panic` called there. -/
inductive Spot where
  | code (p : Pc)
  | panic (stage : PanicStage) (message : String) (p : Pc)

/-- Whose program counter it is. -/
def Pc.thread : Pc → Thread
  | main _ => .main
  | dispatch _ => .dispatch
  | work k _ => .work k
  | debug _ => .debug
  | handler _ => .handler

namespace Spot

def pc : Spot → Pc
  | code p | panic _ _ p => p

/-- `panic` is called. -/
def enter (message : String) (p : Pc) : Spot :=
  panic (if p.thread = .handler then .print else .lock) message p

def instr (boot : Boot) : Spot → Instr Spot
  | code p => (p.code boot).map code
  | panic .lock message p => .lock .term_write (panic .print message p)
  | panic .print message p => .outside (.print message) fun _ =>
      panic (if p.thread = .handler then .powerDown else .unlock) message p
  | panic .unlock message p => .unlock .term_write (panic .powerDown message p)
  | panic .powerDown message p => .power_down (panic .exit message p)
  | panic .exit _ _ => .done

end Spot

structure System where
  shared : Shared
  place : Thread → Spot
  terminated : Thread → Bool
  /-- `power_down` has been called. -/
  off : Bool

inductive SystemAct where
  | step (t : Thread) (ans : Answer)
  /-- The port operation of a context fails. -/
  | fail (t : Thread) (message : String)
  /-- A rising edge of `req_intr`. -/
  | edge
  /-- The chip writes a word of its memory. -/
  | write (a v : Word)
  deriving DecidableEq, Repr

namespace System

def goto (s : System) (t : Thread) (q : Spot) : System := { s with place := update s.place t q }

/-- One step of context `t`. -/
def stepOf (boot : Boot) (t : Thread) (ans : Answer) (s : System) : Option System :=
  match (s.place t).instr boot with
  | .scans _ next => some (s.goto t (next ans.ret))
  | .reset next => some (s.goto t next)
  | .terminate u next => some { s.goto t next with terminated := update s.terminated u true }
  | .panic message => some (s.goto t (.enter message (s.place t).pc))
  | .power_down next => some { s.goto t next with off := true }
  | i => (i.exec t ans s.shared).map fun (sh, q) => { s.goto t q with shared := sh }

/-- The handler is not under way. -/
def handlerIdle (s : System) : Bool :=
  match s.place .handler with
  | .code (.handler (.wait _)) => true
  | _ => false

/-- The context can be given the processor. -/
def ready (s : System) (t : Thread) : Bool := !s.terminated t && (t = .handler || s.handlerIdle)

end System

/-- The state in which `enable_GPIO_intr` returns. -/
structure System.Fresh (s : System) : Prop where
  mutex : ∀ m, s.shared.mutex m = none
  place : ∀ t, s.place t = .code (Pc.start t)
  terminated : ∀ t, s.terminated t = false
  off : s.off = false

def system (boot : Boot) : Machine System SystemAct where
  start := System.Fresh
  step
    | .step t ans, s => if s.ready t then s.stepOf boot t ans else none
    | .fail t message, s =>
      if s.ready t && ((s.place t).instr boot).onPort then some (s.goto t (.enter message (s.place t).pc))
      else none
    | .edge, s =>
      some { s with shared := { s.shared with flag := update s.shared.flag .handler true } }
    | .write a v, s => some { s with shared := { s.shared with mem := update s.shared.mem a v } }

/-! ## What is asked of it -/

/-- `main` past its command loop. -/
def MainPoint.afterLoop : MainPoint → Bool
  | shutdown _ | powerDown | spin => true
  | _ => false

def MainPc.afterLoop : MainPc → Bool
  | run p | printLock _ p | print _ p | printUnlock p => p.afterLoop
  | _ => false

/-- In `panic`, or `main` past its command loop. -/
def Spot.leaving : Spot → Bool
  | panic .. => true
  | code (.main p) => p.afterLoop
  | _ => false

namespace System

def Leaving (s : System) (t : Thread) : Prop := s.terminated t = false ∧ (s.place t).leaving = true

/-- Thread `t` waits for a mutex that `u` holds. -/
def WaitsOn (boot : Boot) (s : System) (t u : Thread) : Prop :=
  s.terminated t = false ∧
    ∃ m n, (s.place t).instr boot = .lock m n ∧ (s.shared.mutex m).holder = some u ∧ u ≠ t

end System

/-! ## The condition -/

/-- How often the context holds the mutex: once for its section, and once more in the print of `panic`. -/
def Spot.depth (m : Lock) : Spot → Nat
  | code p => (p.holds m).toNat
  | panic stage _ p => (p.holds m).toNat +
      if m = .term_write ∧ (stage = .print ∨ stage = .unlock) ∧ p.thread ≠ .handler then 1 else 0

/-- At the lock of `panic`. -/
def Spot.atLock : Spot → Bool
  | panic .lock _ _ => true
  | _ => false

/-- `main` about to terminate a thread. -/
def Spot.terminates : Spot → Option Thread
  | code (.main (.run (.shutdown (u :: _)))) => some u
  | _ => none

/-- `term_printf` about to take `term_write_mutex`. -/
def Spot.entersPrintf : Spot → Bool
  | code (.work _ (.outerLock .term_printf _)) => true
  | _ => false

/-- `term_printf` about to take `JTAG_mutex`, with `term_write_mutex` held. -/
def Spot.crosses : Spot → Bool
  | code (.work _ (.wbLock .term_printf)) => true
  | _ => false

/-- `term_printf` is between its two mutexes. -/
def System.crossing (s : System) : Bool := (s.place (.work .send)).crosses

/-- The holder of `JTAG_mutex`, if there is one, goes on without waiting. -/
def System.Frees (s : System) : Prop :=
  ∀ v, 0 < (s.place v).depth .JTAG → s.terminated v = false ∧ (s.place v).atLock = false

/-- `main` terminates no thread that holds `term_write_mutex`, and none that holds `JTAG_mutex` while
`term_printf` waits for it; no port operation fails in a thread that holds `JTAG_mutex` meanwhile; and
`term_printf` begins only while `JTAG_mutex` is not held by a thread that was terminated or that is at
the lock of `panic`. -/
def LockOk : SystemAct → System → Prop
  | .step t _, s =>
    (∀ u ∈ (s.place t).terminates, (s.place u).depth .term_write = 0 ∧
      (0 < (s.place u).depth .JTAG → s.crossing = false)) ∧
    ((s.place t).entersPrintf = true → s.Frees)
  | .fail t _, s => 0 < (s.place t).depth .JTAG → s.crossing = false
  | _, _ => True

instance (s : System) : Decidable s.Frees := inferInstanceAs (Decidable (∀ _, _ → _ ∧ _))

instance (a : SystemAct) (s : System) : Decidable (LockOk a s) :=
  match a with
  | .step .. => inferInstanceAs (Decidable ((∀ u ∈ _, _) ∧ (_ → System.Frees s)))
  | .fail .. => inferInstanceAs (Decidable (_ → _))
  | .edge => .isTrue trivial
  | .write .. => .isTrue trivial

/-! ## Mutexes held more than once -/

section Nests

variable {P : Type}

/-- How the code relates to the mutex `m` where it may lock it again: `depth` counts. -/
structure Nests (m : Lock) (code : P → Instr P) (ok : P → Prop) (depth : P → Nat) : Prop where
  enter : ∀ p n, ok p → code p = .lock m n → depth n = depth p + 1
  leave : ∀ p n, ok p → code p = .unlock m n → depth p = depth n + 1
  stay : ∀ p q, ok p → (∀ n, code p ≠ .lock m n) → (∀ n, code p ≠ .unlock m n) → (code p).Next q →
    depth q = depth p

variable {m : Lock} {code : P → Instr P} {ok : P → Prop}

/-- A step of a thread moves its count along with its program counter. -/
theorem Nests.exec {depth : P → Nat} {t : Thread} {ans : Answer} {s s' : Shared} {p q : P}
    {held : Thread → Nat} (hn : Nests m code ok depth) (hok : ok p)
    (h : (code p).exec t ans s = some (s', q)) (hm : (s.mutex m).Counts held) (ht : held t = depth p) :
    (s'.mutex m).Counts (update held t (depth q)) := by
  by_cases hlock : ∃ n, code p = .lock m n
  · obtain ⟨n, hcode⟩ := hlock
    have hdepth := hn.enter p n hok hcode
    rw [hcode] at h
    obtain ⟨l, hl, rfl, rfl⟩ := Instr.exec_lock h
    rw [hdepth, ← ht]
    simp only [update_self]
    exact hm.lock hl
  · by_cases hunlock : ∃ n, code p = .unlock m n
    · obtain ⟨n, hcode⟩ := hunlock
      have hdepth := hn.leave p n hok hcode
      rw [hcode] at h
      cases h
      simp only [update_self]
      exact hm.unlock (ht.trans hdepth)
    · have hstay := hn.stay p q hok (fun n hc => hlock ⟨n, hc⟩) (fun n hc => hunlock ⟨n, hc⟩)
        (Instr.exec_next h)
      rw [Instr.exec_mutex m h (fun n hc => hlock ⟨n, hc⟩) (fun n hc => hunlock ⟨n, hc⟩), hstay, ← ht,
        update_eq_self]
      exact hm

end Nests

/-! ## The places -/

/-- A worker runs its own services, in order, and the handler has nothing to do with the mutex. -/
def Spot.InOrder : Spot → Prop
  | code p => p.InOrder
  | panic stage _ p => p.InOrder ∧ (p.thread = .handler → stage ≠ .lock ∧ stage ≠ .unlock)

section Spot

variable {boot : Boot} {p q : Spot}

theorem Pc.thread_next {p q : Pc} (h : (p.code boot).Next q) : q.thread = p.thread := by
  cases p with
  | main | dispatch | work | debug | handler =>
    obtain ⟨q', -, rfl⟩ := Instr.next_map h
    rfl

theorem Spot.thread_next (h : (p.instr boot).Next q) : q.pc.thread = p.pc.thread := by
  cases p with
  | code p =>
    obtain ⟨q', hq, rfl⟩ := Instr.next_map h
    exact Pc.thread_next hq
  | panic stage message p =>
    cases stage with
    | print => obtain ⟨_, rfl⟩ := h; rfl
    | lock | unlock | powerDown => cases h; rfl
    | exit => cases h

theorem Spot.InOrder.next (hp : p.InOrder) (h : (p.instr boot).Next q) : q.InOrder := by
  cases p with
  | code p =>
    obtain ⟨q', hq, rfl⟩ := Instr.next_map h
    exact Pc.InOrder.next hp hq
  | panic stage message p =>
    cases stage with
    | lock =>
      cases h
      exact ⟨hp.1, fun _ => ⟨PanicStage.noConfusion, PanicStage.noConfusion⟩⟩
    | print =>
      obtain ⟨_, rfl⟩ := h
      refine ⟨hp.1, fun hh => ?_⟩
      rw [if_pos hh]
      exact ⟨PanicStage.noConfusion, PanicStage.noConfusion⟩
    | unlock =>
      cases h
      exact ⟨hp.1, fun _ => ⟨PanicStage.noConfusion, PanicStage.noConfusion⟩⟩
    | powerDown =>
      cases h
      exact ⟨hp.1, fun _ => ⟨PanicStage.noConfusion, PanicStage.noConfusion⟩⟩
    | exit => cases h

theorem Spot.InOrder.pc (hp : p.InOrder) : p.pc.InOrder := by
  cases p with
  | code p => exact hp
  | panic stage message p => exact hp.1

theorem Spot.enter_inOrder (message : String) {p : Pc} (hp : p.InOrder) :
    (Spot.enter message p).InOrder := by
  refine ⟨hp, fun hh => ?_⟩
  rw [if_pos hh]
  exact ⟨PanicStage.noConfusion, PanicStage.noConfusion⟩

/-- Entering `panic` takes no mutex. -/
theorem Spot.enter_depth (m : Lock) (message : String) (p : Pc) :
    (Spot.enter message p).depth m = (p.holds m).toNat := by
  have hno : ¬ (m = .term_write ∧
      ((if p.thread = .handler then PanicStage.print else .lock) = .print ∨
        (if p.thread = .handler then PanicStage.print else .lock) = .unlock) ∧ p.thread ≠ .handler) := by
    rintro ⟨-, hstage, hh⟩
    rw [if_neg hh] at hstage
    rcases hstage with hstage | hstage <;> cases hstage
  rw [Spot.enter, Spot.depth, if_neg hno, Nat.add_zero]

/-- **The mutexes in the whole program**, `panic` included. -/
theorem spot_nests (boot : Boot) (m : Lock) :
    Nests m (Spot.instr boot) Spot.InOrder (Spot.depth m) := by
  have hg := pc_guards boot m
  refine ⟨fun p n hp h => ?_, fun p n hp h => ?_, fun p q hp hl hu h => ?_⟩
  · cases p with
    | code p =>
      obtain ⟨n', hn', rfl⟩ := Instr.map_eq_lock h
      obtain ⟨hout, hin⟩ := hg.enter p n' hp hn'
      simp [Spot.depth, hout, hin]
    | panic stage message p =>
      cases stage <;> cases h
      have hh : p.thread ≠ .handler := fun hh => (hp.2 hh).1 rfl
      simp [Spot.depth, hh]
  · cases p with
    | code p =>
      obtain ⟨n', hn', rfl⟩ := Instr.map_eq_unlock h
      obtain ⟨hin, hout⟩ := hg.leave p n' hp hn'
      simp [Spot.depth, hout, hin]
    | panic stage message p =>
      cases stage <;> cases h
      have hh : p.thread ≠ .handler := fun hh => (hp.2 hh).2 rfl
      simp [Spot.depth, hh]
  · cases p with
    | code p =>
      obtain ⟨q', hq, rfl⟩ := Instr.next_map h
      have hstay := hg.stay p q' hp (fun n hn => hl (.code n) (by simp [Spot.instr, hn, Instr.map]))
        (fun n hn => hu (.code n) (by simp [Spot.instr, hn, Instr.map])) hq
      simp [Spot.depth, hstay]
    | panic stage message p =>
      cases stage with
      | lock =>
        have hm : m ≠ .term_write := fun hm => hl _ (by rw [hm]; rfl)
        cases h
        simp [Spot.depth, hm]
      | print =>
        obtain ⟨_, rfl⟩ := h
        by_cases hh : p.thread = .handler <;> simp [Spot.depth, hh]
      | unlock =>
        have hm : m ≠ .term_write := fun hm => hu _ (by rw [hm]; rfl)
        cases h
        simp [Spot.depth, hm]
      | powerDown => cases h; simp [Spot.depth]
      | exit => cases h

end Spot

/-! ## `main` past its command loop -/

/-- The point `main` is at, or prints before. -/
def MainPc.point : MainPc → MainPoint
  | run p | printLock _ p | print _ p | printUnlock p => p
  | scanRead line | scanUnlock line => .scanLock line

theorem MainPc.afterLoop_eq (p : MainPc) : p.afterLoop = p.point.afterLoop := by
  cases p <;> rfl

theorem MainPoint.loadRound_afterLoop (addr : Word) (k : Nat) (fp : Stdio.Stream) :
    (loadRound addr k fp).afterLoop = false := by
  unfold loadRound
  split <;> rfl

theorem MainPoint.loadNext_afterLoop (left : Nat) (addr : Word) (k : Nat) (fp : Stdio.Stream) :
    (loadNext left addr k fp).afterLoop = false := by
  unfold loadNext
  split
  · exact loadRound_afterLoop ..
  · split
    · exact loadRound_afterLoop ..
    · rfl

theorem MainPoint.checkRound_afterLoop (addr : Word) (c : CheckAcc) :
    (checkRound addr c).afterLoop = false := by
  unfold checkRound
  split
  · split <;> rfl
  · rfl

theorem MainPoint.checkEnd_afterLoop (j : Nat) (addr : Word) (c : CheckAcc) :
    (checkEnd j addr c).afterLoop = false := by
  unfold checkEnd
  split
  · exact checkRound_afterLoop ..
  · rfl

theorem MainPoint.checkNext_afterLoop (left j : Nat) (addr : Word) (c : CheckAcc) :
    (checkNext left j addr c).afterLoop = false := by
  unfold checkNext
  split
  · exact checkEnd_afterLoop ..
  · split
    · exact checkEnd_afterLoop ..
    · rfl

theorem MainPc.compared_point (junk : Nat → Word) (j : Nat) (w : Word) (c : CheckAcc)
    (next : CheckAcc → MainPoint) : ∃ c', (compared junk j w c next).point = next c' := by
  unfold compared
  simp only
  split <;> exact ⟨_, rfl⟩

/-- How `main` gets on past its command loop. -/
inductive MainPc.Leaves : MainPc → MainPc → Prop where
  | begin {p q : MainPc} (h : q.point = .shutdown workers) : Leaves p q
  | print {p q : MainPc} (h : q.point = p.point) : Leaves p q
  | terminate (u : Thread) (l : List Thread) : Leaves (run (.shutdown (u :: l))) (run (.shutdown l))
  | reset (text : String) : Leaves (run (.shutdown [])) (printLock text .powerDown)
  | powerDown (text : String) : Leaves (run .powerDown) (printLock text .spin)

theorem MainPc.leaves {boot : Boot} {p q : MainPc} (h : (p.code boot).Next q)
    (hq : q.afterLoop = true) : Leaves p q := by
  rw [afterLoop_eq] at hq
  cases p with
  | printLock text next => cases h; exact .print rfl
  | print text next => obtain ⟨_, rfl⟩ := h; exact .print rfl
  | printUnlock next => cases h; exact .print rfl
  | scanRead line => obtain ⟨_, rfl⟩ := h; cases hq
  | scanUnlock line =>
    cases h
    unfold command at hq ⊢
    split at hq
    · rename_i hquit
      rw [if_pos hquit]
      exact .begin rfl
    · cases hq
  | run p =>
    have hno : ∀ p' : MainPoint, p'.afterLoop = false → q.point = p' → Leaves (run p) q := by
      intro p' hp' he
      rw [he, hp'] at hq
      cases hq
    cases p with
    | shutdown l =>
      cases l with
      | nil => cases h; exact .reset _
      | cons u l => cases h; exact .terminate u l
    | powerDown => cases h; exact .powerDown _
    | spin | panicked => cases h
    | checkRead left j addr c =>
      obtain ⟨w, rfl⟩ := h
      obtain ⟨c', hc'⟩ := compared_point boot.junk j w c fun c => .checkNext left (j + 1) addr c
      exact hno _ (MainPoint.checkNext_afterLoop ..) hc'
    | checkLast j addr c =>
      obtain ⟨w, rfl⟩ := h
      obtain ⟨c', hc'⟩ := compared_point boot.junk j w c fun c => .checkRound (addr + 1024 * 4) c
      exact hno _ (MainPoint.checkRound_afterLoop ..) hc'
    | readHalted =>
      obtain ⟨v, rfl⟩ := h
      dsimp only at hq ⊢
      split at hq <;> cases hq
    | loadOpen =>
      obtain ⟨v, rfl⟩ := h
      dsimp only at hq ⊢
      split at hq <;> cases hq
    | loadBank fp => obtain ⟨v, rfl⟩ := h; exact hno _ (MainPoint.loadRound_afterLoop ..) rfl
    | loadTar addr k fp =>
      obtain ⟨v, rfl⟩ := h
      exact hno _ (MainPoint.loadNext_afterLoop 1024 addr k fp) rfl
    | loadWord left addr k fp => obtain ⟨v, rfl⟩ := h; exact hno _ (MainPoint.loadNext_afterLoop ..) rfl
    | checkBank c => obtain ⟨v, rfl⟩ := h; exact hno _ (MainPoint.checkRound_afterLoop ..) rfl
    | checkFirst addr c =>
      obtain ⟨v, rfl⟩ := h
      exact hno _ (MainPoint.checkNext_afterLoop 1023 1 addr c) rfl
    | powerup | powerCore | loadPowerup | loadBegin | checkTar | resetCore =>
      obtain ⟨v, rfl⟩ := h
      cases hq
    | reset | intclk | extclk | extdiv | halt | setImem | scanLock | signalDebug => cases h; cases hq

/-- Nothing leads back. -/
theorem MainPc.afterLoop_next {boot : Boot} {p q : MainPc} (hp : p.afterLoop = true)
    (h : (p.code boot).Next q) : q.afterLoop = true := by
  cases p with
  | run p =>
    cases p with
    | shutdown l => cases l <;> cases h <;> rfl
    | powerDown => cases h; rfl
    | spin => cases h
    | _ => cases hp
  | printLock text next => cases h; exact hp
  | print text next => obtain ⟨_, rfl⟩ := h; exact hp
  | printUnlock next => cases h; exact hp
  | _ => cases hp

/-! ## What the places lead to -/

/-- `main` has called `power_down`. -/
def MainPoint.past : MainPoint → Bool
  | spin => true
  | _ => false

/-- The threads `main` has still to terminate. -/
def MainPoint.targets : MainPoint → List Thread
  | shutdown l => l
  | _ => []

/-- The context has called `power_down`. -/
def Spot.past : Spot → Bool
  | panic .exit _ _ => true
  | code (.main p) => p.point.past
  | _ => false

def Spot.targets : Spot → List Thread
  | code (.main p) => p.point.targets
  | _ => []

section Places

variable {boot : Boot} {p q : Spot}

theorem Spot.next_atLock (h : (p.instr boot).Next q) : q.atLock = false := by
  cases p with
  | code p =>
    obtain ⟨q', -, rfl⟩ := Instr.next_map h
    rfl
  | panic stage message p =>
    cases stage with
    | print =>
      obtain ⟨_, rfl⟩ := h
      split <;> rfl
    | lock | unlock | powerDown => cases h; rfl
    | exit => cases h

/-- Between its mutexes `term_printf` comes from its lock of the first. -/
theorem Spot.next_crosses (hp : p.InOrder) (h : (p.instr boot).Next q) (hq : q.crosses = true) :
    p.entersPrintf = true := by
  cases p with
  | code p =>
    obtain ⟨q', hq', rfl⟩ := Instr.next_map h
    cases p with
    | work k p =>
      obtain ⟨q'', hq'', rfl⟩ := Instr.next_map hq'
      have hin : p.InOrder := WorkPc.Fits.inOrder hp
      cases WorkPc.goes hq'' with
      | choose v =>
        rcases WorkPc.ofType_cases k v with ⟨svc, -, he | he | he⟩ | ⟨m, he⟩ <;> rw [he] at hq <;>
          cases hq
      | openSend svc arg =>
        cases svc with
        | term_printf => cases hin
        | _ => cases hq
      | heldSend svc arg =>
        cases svc with
        | term_printf => rfl
        | _ => cases hq
      | _ => cases hq
    | main | dispatch | debug | handler =>
      obtain ⟨q', -, rfl⟩ := Instr.next_map hq'
      cases hq
  | panic stage message p =>
    cases stage with
    | print => obtain ⟨_, rfl⟩ := h; cases hq
    | lock | unlock | powerDown | exit => cases h <;> cases hq

theorem Instr.map_eq_terminate {P Q : Type} {f : P → Q} {i : Instr P} {u : Thread} {n : Q}
    (h : i.map f = .terminate u n) : ∃ n', i = .terminate u n' ∧ n = f n' := by
  cases i <;> cases h
  exact ⟨_, rfl, rfl⟩

theorem Instr.map_eq_panic {P Q : Type} {f : P → Q} {i : Instr P} {message : String}
    (h : i.map f = .panic message) : i = .panic message := by
  cases i <;> cases h
  rfl

/-- Only `main` terminates threads. -/
theorem Spot.instr_terminate {u : Thread} {n : Spot} (h : p.instr boot = .terminate u n) :
    ∃ l, p = .code (.main (.run (.shutdown (u :: l)))) ∧
      n = .code (.main (.run (.shutdown l))) := by
  cases p with
  | code p =>
    obtain ⟨n', hn', rfl⟩ := Instr.map_eq_terminate h
    cases p with
    | main p =>
      obtain ⟨n', hn', rfl⟩ := Instr.map_eq_terminate hn'
      cases p with
      | run p =>
        cases p with
        | shutdown l =>
          cases l with
          | nil => cases hn'
          | cons u l => cases hn'; exact ⟨l, rfl, rfl⟩
        | _ => cases hn'
      | _ => cases hn'
    | dispatch p => obtain ⟨n', hn', rfl⟩ := Instr.map_eq_terminate hn'; cases p <;> cases hn'
    | work k p =>
      obtain ⟨n', hn', rfl⟩ := Instr.map_eq_terminate hn'
      cases p with
      | rbWrite svc reply i ws => cases ws <;> cases hn'
      | _ => cases hn'
    | debug p => obtain ⟨n', hn', rfl⟩ := Instr.map_eq_terminate hn'; cases p <;> cases hn'
    | handler p => obtain ⟨n', hn', rfl⟩ := Instr.map_eq_terminate hn'; cases p <;> cases hn'
  | panic stage message p => cases stage <;> cases h

/-- Where the code calls `panic` itself, no mutex is held. -/
theorem Spot.instr_panic {message : String} (h : p.instr boot = .panic message) :
    ∃ p', p = .code p' ∧ ∀ m, p'.holds m = false := by
  cases p with
  | code p =>
    refine ⟨p, rfl, fun m => ?_⟩
    have hcode := Instr.map_eq_panic h
    cases p with
    | main p =>
      have hcode := Instr.map_eq_panic hcode
      cases p with
      | run p => exact MainPc.run_holds m p
      | _ => cases hcode
    | dispatch p => have hcode := Instr.map_eq_panic hcode; cases p <;> cases hcode
    | work k p =>
      have hcode := Instr.map_eq_panic hcode
      cases p with
      | panicked message => cases m <;> rfl
      | rbWrite svc reply i ws => cases ws <;> cases hcode
      | _ => cases hcode
    | debug p => have hcode := Instr.map_eq_panic hcode; cases p <;> cases hcode
    | handler p => have hcode := Instr.map_eq_panic hcode; cases p <;> cases hcode
  | panic stage message p => cases stage <;> cases h

theorem Spot.code_of_onPort (h : (p.instr boot).onPort = true) : ∃ p', p = .code p' := by
  cases p with
  | code p => exact ⟨p, rfl⟩
  | panic stage message p => cases stage <;> cases h

/-- Only `power_down` leads past `power_down`. -/
theorem Spot.next_past (h : (p.instr boot).Next q) (hq : q.past = true) :
    p.past = true ∨ ∃ n, p.instr boot = .power_down n := by
  cases p with
  | code p =>
    obtain ⟨q', hq', rfl⟩ := Instr.next_map h
    cases p with
    | main p =>
      obtain ⟨q'', hq'', rfl⟩ := Instr.next_map hq'
      have hpast : q''.point.past = true := hq
      have hafter : q''.afterLoop = true := by
        rw [MainPc.afterLoop_eq]
        cases hpoint : q''.point <;> rw [hpoint] at hpast <;> first | rfl | cases hpast
      cases MainPc.leaves hq'' hafter with
      | begin he => rw [he] at hpast; cases hpast
      | print he => rw [he] at hpast; exact .inl hpast
      | terminate u l => cases hpast
      | reset text => cases hpast
      | powerDown text => exact .inr ⟨_, rfl⟩
    | dispatch | work | debug | handler =>
      obtain ⟨q', -, rfl⟩ := Instr.next_map hq'
      cases hq
  | panic stage message p =>
    cases stage with
    | print =>
      obtain ⟨_, rfl⟩ := h
      split at hq <;> cases hq
    | powerDown => exact .inr ⟨_, rfl⟩
    | lock | unlock | exit => cases h <;> cases hq

theorem Spot.next_targets (h : (p.instr boot).Next q) {u : Thread} (hu : u ∈ q.targets) :
    u ∈ p.targets ∨ u ∈ MainPc.workers := by
  cases p with
  | code p =>
    obtain ⟨q', hq', rfl⟩ := Instr.next_map h
    cases p with
    | main p =>
      obtain ⟨q'', hq'', rfl⟩ := Instr.next_map hq'
      have hu : u ∈ q''.point.targets := hu
      have hafter : q''.afterLoop = true := by
        rw [MainPc.afterLoop_eq]
        cases hpoint : q''.point <;> rw [hpoint] at hu <;> first | rfl | cases hu
      cases MainPc.leaves hq'' hafter with
      | begin he => rw [he] at hu; exact .inr hu
      | print he => rw [he] at hu; exact .inl hu
      | terminate v l => exact .inl (List.mem_cons_of_mem v hu)
      | reset text => cases hu
      | powerDown text => cases hu
    | dispatch | work | debug | handler =>
      obtain ⟨q', -, rfl⟩ := Instr.next_map hq'
      cases hu
  | panic stage message p =>
    cases stage with
    | print => obtain ⟨_, rfl⟩ := h; cases hu
    | lock | unlock | powerDown | exit => cases h <;> cases hu

end Places

/-! ## What the runs keep -/

namespace System

/-- Every context is in its own code and holds the mutexes its place says; no terminated thread holds
`term_write_mutex`; and while `term_printf` is between its two mutexes, whoever holds the second goes on
without waiting. -/
structure Safe (s : System) : Prop where
  own : ∀ t, (s.place t).pc.thread = t
  inOrder : ∀ t, (s.place t).InOrder
  held : ∀ m, (s.shared.mutex m).Counts fun t => (s.place t).depth m
  past : ∀ t, (s.place t).past = true → s.off = true
  targets : ∀ t, ∀ u ∈ (s.place t).targets, u ∈ MainPc.workers
  spared : ∀ u, s.terminated u = true → u ∈ MainPc.workers
  term_write : ∀ t, s.terminated t = true → (s.place t).depth .term_write = 0
  crossing : s.crossing = true → s.Frees

variable {boot : Boot} {s s' : System} {t : Thread} {ans : Answer}

/-- `main` terminates the workers, never itself. -/
theorem Safe.terminates {u : Thread} (hs : s.Safe) (h : (s.place t).terminates = some u) :
    t = .main ∧ u ∈ MainPc.workers ∧ u ≠ t := by
  have hown := hs.own t
  have htargets := hs.targets t u
  cases hp : s.place t with
  | panic stage message p => rw [hp] at h; cases h
  | code p =>
    rw [hp] at h hown htargets
    unfold Spot.terminates at h
    split at h
    · rename_i v l heq
      cases h
      cases heq
      have hu := htargets List.mem_cons_self
      refine ⟨hown.symm, hu, ?_⟩
      rintro rfl
      rw [← show Thread.main = u from hown] at hu
      exact absurd hu (by decide)
    · cases h

/-- What a step of a context can do. -/
theorem stepOf_cases (h : s.stepOf boot t ans = some s') :
    (∃ sh q, ((s.place t).instr boot).exec t ans s.shared = some (sh, q) ∧
      s' = { s.goto t q with shared := sh }) ∨
    (∃ q, ((s.place t).instr boot).Next q ∧ ((s.place t).instr boot).onPort = true ∧ s' = s.goto t q) ∨
    (∃ u n, (s.place t).instr boot = .terminate u n ∧
      s' = { s.goto t n with terminated := update s.terminated u true }) ∨
    (∃ message, (s.place t).instr boot = .panic message ∧
      s' = s.goto t (.enter message (s.place t).pc)) ∨
    ∃ n, (s.place t).instr boot = .power_down n ∧ s' = { s.goto t n with off := true } := by
  unfold stepOf at h
  split at h
  · rename_i l next hi
    cases h
    rw [hi]
    exact .inr (.inl ⟨_, ⟨ans.ret, rfl⟩, rfl, rfl⟩)
  · rename_i next hi
    cases h
    rw [hi]
    exact .inr (.inl ⟨_, rfl, rfl, rfl⟩)
  · rename_i u next hi
    cases h
    exact .inr (.inr (.inl ⟨u, next, hi, rfl⟩))
  · rename_i message hi
    cases h
    exact .inr (.inr (.inr (.inl ⟨message, hi, rfl⟩)))
  · rename_i next hi
    cases h
    exact .inr (.inr (.inr (.inr ⟨next, hi, rfl⟩)))
  · obtain ⟨⟨sh, q⟩, he, rfl⟩ := Option.map_eq_some_iff.mp h
    exact .inl ⟨sh, q, he, rfl⟩

/-- A context goes to another place. -/
theorem Safe.goto {sh : Shared} {q : Spot} (hs : s.Safe) (halive : s.terminated t = false)
    (hown : q.pc.thread = t) (hord : q.InOrder)
    (hheld : ∀ m, (sh.mutex m).Counts (update (fun t => (s.place t).depth m) t (q.depth m)))
    (hpast : q.past = true → s.off = true) (htargets : ∀ u ∈ q.targets, u ∈ MainPc.workers)
    (hlock : q.atLock = true → 0 < q.depth .JTAG → s.crossing = false)
    (hcross : q.crosses = true → s.Frees) : Safe { s.goto t q with shared := sh } := by
  have hplace : ∀ u, u ≠ t → update s.place t q u = s.place u := fun u hu => update_of_ne hu _ _
  have hall : ∀ P : Thread → Spot → Prop, P t q → (∀ u, P u (s.place u)) →
      ∀ u, P u (update s.place t q u) :=
    fun P hq hP => (forall_update_iff s.place P).mpr ⟨hq, fun u _ => hP u⟩
  refine ⟨hall (fun u p => p.pc.thread = u) hown hs.own, hall (fun _ p => p.InOrder) hord hs.inOrder,
    fun m => ?_, hall (fun _ p => p.past = true → s.off = true) hpast hs.past,
    hall (fun _ p => ∀ u ∈ p.targets, u ∈ MainPc.workers) htargets hs.targets, hs.spared,
    fun u hu => ?_, fun hc => ?_⟩
  · show (sh.mutex m).Counts (Spot.depth m ∘ update s.place t q)
    rw [comp_update]
    exact hheld m
  · have hu : s.terminated u = true := hu
    have hne : u ≠ t := by
      intro hut
      rw [hut, halive] at hu
      cases hu
    show (update s.place t q u).depth .term_write = 0
    rw [hplace u hne]
    exact hs.term_write u hu
  · -- the newcomer between the mutexes is `t`, or it was there before
    have hc : (update s.place t q (.work .send)).crosses = true := hc
    have hfrees : s.Frees ∧ (q.atLock = true → 0 < q.depth .JTAG → False) := by
      by_cases hsend : Thread.work .send = t
      · rw [hsend, update_self] at hc
        refine ⟨hcross hc, fun hat _ => ?_⟩
        cases q with
        | code p => cases hat
        | panic stage message p => cases hc
      · rw [hplace _ hsend] at hc
        refine ⟨hs.crossing hc, fun hat hpos => ?_⟩
        have := hlock hat hpos
        rw [show s.crossing = true from hc] at this
        cases this
    intro v hv
    have hv : 0 < (update s.place t q v).depth .JTAG := hv
    show s.terminated v = false ∧ (update s.place t q v).atLock = false
    by_cases hvt : v = t
    · subst hvt
      rw [update_self] at hv ⊢
      refine ⟨halive, ?_⟩
      cases hat : q.atLock with
      | false => rfl
      | true => exact (hfrees.2 hat hv).elim
    · rw [hplace v hvt] at hv ⊢
      exact hfrees.1 v hv

/-- Where the counts stay. -/
theorem Safe.held_stay {q : Spot} (hs : s.Safe) (hdepth : ∀ m, q.depth m = (s.place t).depth m)
    (m : Lock) : (s.shared.mutex m).Counts (update (fun t => (s.place t).depth m) t (q.depth m)) := by
  rw [hdepth m, update_eq_self]
  exact hs.held m

/-- Along the code. -/
theorem Safe.next {q : Spot} (hs : s.Safe) (sh : Shared) (halive : s.terminated t = false)
    (hok : (s.place t).entersPrintf = true → s.Frees) (hn : ((s.place t).instr boot).Next q)
    (hheld : ∀ m, (sh.mutex m).Counts (update (fun t => (s.place t).depth m) t (q.depth m)))
    (hpast : q.past = true → s.off = true) : Safe { s.goto t q with shared := sh } := by
  have hown : q.pc.thread = t := (Spot.thread_next hn).trans (hs.own t)
  have htargets : ∀ u ∈ q.targets, u ∈ MainPc.workers := by
    intro u hu
    rcases Spot.next_targets hn hu with hu | hu
    · exact hs.targets t u hu
    · exact hu
  refine hs.goto halive hown ((hs.inOrder t).next hn) hheld hpast htargets (fun hat => ?_)
    fun hc => hok (Spot.next_crosses (hs.inOrder t) hn hc)
  rw [Spot.next_atLock hn] at hat
  cases hat

/-- Into `panic`. -/
theorem Safe.enter {p : Pc} (hs : s.Safe) (halive : s.terminated t = false)
    (hp : s.place t = .code p) (hok : 0 < (s.place t).depth .JTAG → s.crossing = false)
    (message : String) : Safe (s.goto t (.enter message (s.place t).pc)) := by
  have hpc : (s.place t).pc = p := by rw [hp]; rfl
  have hdepth : ∀ m, (Spot.enter message p).depth m = (s.place t).depth m := by
    intro m
    rw [Spot.enter_depth, hp]
    rfl
  rw [hpc]
  refine hs.goto halive (hpc ▸ hs.own t) (Spot.enter_inOrder message (hpc ▸ (hs.inOrder t).pc))
    (hs.held_stay hdepth) (fun hpast => ?_) (fun u hu => by cases hu) (fun _ hpos => ?_) fun hc => by cases hc
  · unfold Spot.enter at hpast
    split at hpast <;> cases hpast
  · rw [hdepth] at hpos
    exact hok hpos

/-- `main` terminates a thread. -/
theorem Safe.terminate {u : Thread} (hs : s.Safe) (hu : u ∈ MainPc.workers)
    (hwrite : (s.place u).depth .term_write = 0)
    (hjtag : 0 < (s.place u).depth .JTAG → s.crossing = false) :
    Safe { s with terminated := update s.terminated u true } := by
  have hother : ∀ v, v ≠ u → update s.terminated u true v = s.terminated v :=
    fun v hv => update_of_ne hv _ _
  refine ⟨hs.own, hs.inOrder, hs.held, hs.past, hs.targets, fun v hv => ?_, fun v hv => ?_,
    fun hc v hpos => ?_⟩
  · by_cases hvu : v = u
    · rw [hvu]
      exact hu
    · have hv : update s.terminated u true v = true := hv
      rw [hother v hvu] at hv
      exact hs.spared v hv
  · by_cases hvu : v = u
    · rw [hvu]
      exact hwrite
    · have hv : update s.terminated u true v = true := hv
      rw [hother v hvu] at hv
      exact hs.term_write v hv
  · have hc : s.crossing = true := hc
    have hvu : v ≠ u := by
      intro hvu
      rw [hvu] at hpos
      rw [hjtag hpos] at hc
      cases hc
    show update s.terminated u true v = false ∧ _
    rw [hother v hvu]
    exact hs.crossing hc v hpos

theorem Safe.switch_off (hs : s.Safe) : Safe { s with off := true } :=
  ⟨hs.own, hs.inOrder, hs.held, fun _ _ => rfl, hs.targets, hs.spared, hs.term_write, hs.crossing⟩

theorem Safe.stepOf (hs : s.Safe) (halive : s.terminated t = false) (hok : LockOk (.step t ans) s)
    (h : s.stepOf boot t ans = some s') : s'.Safe := by
  obtain ⟨hterm, hprintf⟩ := hok
  have hn := spot_nests boot
  rcases stepOf_cases h with ⟨sh, q, he, rfl⟩ | ⟨q, hq, hport, rfl⟩ | ⟨u, n, hi, rfl⟩ |
    ⟨message, hi, rfl⟩ | ⟨n, hi, rfl⟩
  · have hq := Instr.exec_next he
    refine hs.next sh halive hprintf hq
      (fun m => (hn m).exec (hs.inOrder t) he (hs.held m) rfl) fun hpast => ?_
    rcases Spot.next_past hq hpast with hp | ⟨n, hi⟩
    · exact hs.past t hp
    · rw [hi] at he
      cases he
  · refine hs.next s.shared halive hprintf hq (hs.held_stay fun m => ?_) fun hpast => ?_
    · refine (hn m).stay _ q (hs.inOrder t) (fun n hi => ?_) (fun n hi => ?_) hq
      · rw [hi] at hport
        cases hport
      · rw [hi] at hport
        cases hport
    · rcases Spot.next_past hq hpast with hp | ⟨n, hi⟩
      · exact hs.past t hp
      · rw [hi] at hport
        cases hport
  · obtain ⟨l, hp, rfl⟩ := Spot.instr_terminate hi
    have hterminates : (s.place t).terminates = some u := by
      rw [hp]
      rfl
    obtain ⟨hmain, hu, hut⟩ := hs.terminates hterminates
    have hsend : Thread.work .send ≠ t := by
      rw [hmain]
      exact Thread.noConfusion
    obtain ⟨hwrite, hjtag⟩ := hterm u hterminates
    have hnext : ((s.place t).instr boot).Next (.code (.main (.run (.shutdown l)))) := by
      rw [hi]
      rfl
    have hmoved : Safe (s.goto t (.code (.main (.run (.shutdown l))))) := by
      refine hs.next s.shared halive hprintf hnext (hs.held_stay fun m => ?_) fun hpast => by cases hpast
      rw [hp]
      rfl
    refine hmoved.terminate hu ?_ fun hpos => ?_
    · show (update s.place t _ u).depth .term_write = 0
      rw [update_of_ne hut]
      exact hwrite
    · have hpos : 0 < (update s.place t _ u).depth .JTAG := hpos
      rw [update_of_ne hut] at hpos
      show (update s.place t _ (.work .send)).crosses = false
      rw [update_of_ne hsend]
      exact hjtag hpos
  · obtain ⟨p, hp, hno⟩ := Spot.instr_panic hi
    refine hs.enter halive hp (fun hpos => ?_) message
    rw [hp] at hpos
    simp [Spot.depth, hno] at hpos
  · have hnext : ((s.place t).instr boot).Next n := by
      rw [hi]
      rfl
    refine hs.switch_off.next s.shared halive hprintf hnext (hs.held_stay fun m => ?_) fun _ => rfl
    refine (hn m).stay _ n (hs.inOrder t) (fun n' hi' => ?_) (fun n' hi' => ?_) hnext
    · rw [hi] at hi'
      cases hi'
    · rw [hi] at hi'
      cases hi'

theorem Safe.step {a : SystemAct} (hs : s.Safe) (hok : LockOk a s)
    (h : (system boot).step a s = some s') : s'.Safe := by
  cases a with
  | step t ans =>
    simp only [system] at h
    split at h
    · rename_i hready
      exact hs.stepOf (by simpa using (Bool.and_eq_true_iff.mp hready).1) hok h
    · cases h
  | fail t message =>
    simp only [system] at h
    split at h
    · rename_i hcond
      obtain ⟨hready, hport⟩ := Bool.and_eq_true_iff.mp hcond
      cases h
      obtain ⟨p, hp⟩ := Spot.code_of_onPort hport
      exact hs.enter (by simpa using (Bool.and_eq_true_iff.mp hready).1) hp hok message
    · cases h
  | edge =>
    cases h
    exact ⟨hs.own, hs.inOrder, hs.held, hs.past, hs.targets, hs.spared, hs.term_write, hs.crossing⟩
  | write a v =>
    cases h
    exact ⟨hs.own, hs.inOrder, hs.held, hs.past, hs.targets, hs.spared, hs.term_write, hs.crossing⟩

theorem Fresh.safe (hf : s.Fresh) : s.Safe := by
  have hdepth : ∀ m t, (s.place t).depth m = 0 := by
    intro m t
    rw [hf.place t, Spot.depth, Pc.start_holds]
    rfl
  have hcross : s.crossing = false := by
    rw [System.crossing, hf.place]
    rfl
  refine ⟨fun t => ?_, fun t => ?_, fun m => ?_, fun t ht => ?_, fun t u hu => ?_, fun u hu => ?_,
    fun t _ => hdepth _ t, fun hc => ?_⟩
  · rw [hf.place t]
    cases t <;> rfl
  · rw [hf.place t]
    exact Pc.start_inOrder t
  · rw [hf.mutex m]
    exact Mutex.Counts.free (hdepth m)
  · rw [hf.place t] at ht
    cases t <;> cases ht
  · rw [hf.place t] at hu
    cases t <;> cases hu
  · rw [hf.terminated u] at hu
    cases hu
  · rw [hcross] at hc
    cases hc

end System

/-- **Every state such a run reaches is safe.** -/
theorem system_safe {boot : Boot} {s : System} (hr : (system boot).ReachIf LockOk s) : s.Safe :=
  hr.invariant (fun _ h => System.Fresh.safe h) fun _ _ _ hs hok h => hs.step hok h

end Expedition
