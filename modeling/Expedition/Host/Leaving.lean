import Expedition.Host.Progress
import Expedition.Host.Shutdown
import Mathlib.Logic.Relation

/-!
# Nobody is blocked on the way to `power_down`

From a thread in `panic`, or `main` past its command loop, the waits lead to the holder of
`term_write_mutex` and from there, if that is `term_printf` at its second lock, to the holder of
`JTAG_mutex`, which goes on.

* `System.Safe.ahead` — no thread on that way was terminated, and it does not come back.
* `System.Safe.progress` — some thread of the way can take a step, and every such step lowers a number.
* `shutdown_unblocked` — both, for the runs that meet `LockOk`; `shutdown_blocked` — two runs that do not.
-/

namespace Expedition

open Function

/-! ## Who waits -/

/-- The instruction may have to wait, or never ends. -/
def Instr.waits {P : Type} : Instr P → Bool
  | .signal_wait _ | .lock _ _ | .done => true
  | _ => false

theorem Instr.waits_map {P Q : Type} (f : P → Q) (i : Instr P) : (i.map f).waits = i.waits := by
  cases i <;> rfl

theorem WorkPc.waits_of_inJTAG {p : WorkPc} {k : Worker} (h : p.inJTAG = true) :
    (p.code k).waits = false := by
  cases p with
  | rbWrite svc reply i ws => cases ws <;> rfl
  | _ => first | rfl | cases h

/-- Who holds `JTAG_mutex` and is not in `panic` does not wait. -/
theorem Pc.waits_of_holds_JTAG {boot : Boot} {p : Pc} (h : p.holds .JTAG = true) :
    (p.code boot).waits = false := by
  cases p with
  | main p => cases h
  | dispatch p => cases p <;> first | rfl | cases h
  | work k p =>
    have := WorkPc.waits_of_inJTAG (k := k) h
    rwa [← Instr.waits_map (Pc.work k)] at this
  | debug p => cases p <;> first | rfl | cases h
  | handler p => cases h

/-- Who holds `term_write_mutex` and is not in `panic` waits for `JTAG_mutex` at most. -/
theorem Pc.waits_of_holds_term_write {boot : Boot} {p : Pc} (h : p.holds .term_write = true) :
    (p.code boot).waits = false ∨ (Spot.code p).crosses = true := by
  cases p with
  | main p =>
    cases p with
    | print | printUnlock => exact .inl rfl
    | _ => cases h
  | dispatch p => cases p <;> first | exact .inl rfl | cases h
  | work k p =>
    have hout : p.outerHeld = some .term_write := by simpa [Pc.holds, WorkPc.holds] using h
    cases p with
    | wbLock svc =>
      cases svc with
      | term_printf => exact .inr rfl
      | _ => cases hout
    | wbRead | wbUnlock | transmit | outerUnlock => exact .inl rfl
    | receive svc arg => cases svc <;> cases hout
    | rbLock svc reply => cases svc <;> cases hout
    | rbWrite svc reply i ws => cases svc <;> cases hout
    | _ => cases hout
  | debug p => cases p <;> first | exact .inl rfl | cases h
  | handler p => cases h

section Waits

variable {boot : Boot} {p : Spot}

theorem Spot.holds_of_depth {m : Lock} {p : Pc} (h : 0 < (Spot.code p).depth m) :
    p.holds m = true := by
  cases hp : p.holds m with
  | true => rfl
  | false => simp [Spot.depth, hp] at h

theorem Spot.waits_of_depth_JTAG (h : 0 < p.depth .JTAG) (hlock : p.atLock = false)
    (hpast : p.past = false) : (p.instr boot).waits = false := by
  cases p with
  | code p =>
    have hwaits : (p.code boot).waits = false := Pc.waits_of_holds_JTAG (holds_of_depth h)
    rwa [← Instr.waits_map Spot.code] at hwaits
  | panic stage message p =>
    cases stage with
    | lock => cases hlock
    | exit => cases hpast
    | print | unlock | powerDown => rfl

theorem Spot.waits_of_depth_term_write (boot : Boot) (h : 0 < p.depth .term_write) (hlock : p.atLock = false)
    (hpast : p.past = false) : (p.instr boot).waits = false ∨ p.crosses = true := by
  cases p with
  | code p =>
    have hwaits : (p.code boot).waits = false ∨ (Spot.code p).crosses = true :=
      Pc.waits_of_holds_term_write (holds_of_depth h)
    rwa [← Instr.waits_map Spot.code] at hwaits
  | panic stage message p =>
    cases stage with
    | lock => cases hlock
    | exit => cases hpast
    | print | unlock | powerDown => exact .inl rfl

/-- With `JTAG_mutex` held nothing is locked outside `panic`. -/
theorem Spot.lock_of_depth_JTAG {m : Lock} {n : Spot} (h : 0 < p.depth .JTAG)
    (hi : p.instr boot = .lock m n) : p.atLock = true := by
  cases p with
  | code p =>
    have hwaits : (p.code boot).waits = false := Pc.waits_of_holds_JTAG (holds_of_depth h)
    rw [← Instr.waits_map Spot.code, show (p.code boot).map Spot.code = _ from hi] at hwaits
    cases hwaits
  | panic stage message p => cases stage <;> cases hi; rfl

theorem Spot.lock_of_depth_term_write {m : Lock} {n : Spot} (h : 0 < p.depth .term_write)
    (hi : p.instr boot = .lock m n) : p.atLock = true ∨ p.crosses = true := by
  cases p with
  | code p =>
    have hwaits : (p.code boot).waits = false ∨ (Spot.code p).crosses = true :=
      Pc.waits_of_holds_term_write (holds_of_depth h)
    rw [← Instr.waits_map Spot.code] at hwaits
    refine .inr (hwaits.resolve_left fun hno => ?_)
    rw [show (p.code boot).map Spot.code = _ from hi] at hno
    cases hno
  | panic stage message p => cases stage <;> cases hi; exact .inl rfl

theorem Spot.instr_of_crosses (boot : Boot) (h : p.crosses = true) : ∃ n, p.instr boot = .lock .JTAG n := by
  unfold crosses at h
  split at h
  · exact ⟨_, rfl⟩
  · cases h

/-- Only `data_send_loop` runs `term_printf`. -/
theorem Spot.thread_of_crosses (hp : p.InOrder) (h : p.crosses = true) :
    p.pc.thread = .work .send := by
  unfold crosses at h
  split at h
  · exact congrArg Thread.work (hp.own .term_printf rfl).symm
  · cases h

theorem Spot.instr_of_atLock (boot : Boot) (h : p.atLock = true) : ∃ n, p.instr boot = .lock .term_write n := by
  unfold atLock at h
  split at h
  · exact ⟨_, rfl⟩
  · cases h

theorem Spot.instr_of_terminates (boot : Boot) {u : Thread} (h : p.terminates = some u) :
    ∃ n, p.instr boot = .terminate u n := by
  unfold terminates at h
  split at h
  · cases h
    exact ⟨_, rfl⟩
  · cases h

theorem Spot.entersPrintf_of_leaving (h : p.leaving = true) : p.entersPrintf = false := by
  unfold entersPrintf
  split
  · cases h
  · rfl

/-- On the way to `power_down` there is nothing to wait for but `term_write_mutex`. -/
theorem Spot.lock_of_waits (h : p.leaving = true) (hw : (p.instr boot).waits = true)
    (hpast : p.past = false) : ∃ n, p.instr boot = .lock .term_write n := by
  cases p with
  | code p =>
    cases p with
    | main p =>
      cases p with
      | run p =>
        cases p with
        | shutdown l => cases l <;> cases hw
        | powerDown => cases hw
        | spin => cases hpast
        | _ => cases h
      | printLock text next => exact ⟨_, rfl⟩
      | print | printUnlock => cases hw
      | scanRead | scanUnlock => cases h
    | _ => cases h
  | panic stage message p =>
    cases stage with
    | lock => exact ⟨_, rfl⟩
    | exit => cases hpast
    | print | unlock | powerDown => cases hw

/-- In `panic` and past the command loop only `term_write_mutex` is locked. -/
theorem Spot.lock_of_leaving {m : Lock} {n : Spot} (h : p.leaving = true)
    (hi : p.instr boot = .lock m n) : m = .term_write := by
  cases p with
  | code p =>
    obtain ⟨n', hn', rfl⟩ := Instr.map_eq_lock hi
    cases p with
    | main p =>
      obtain ⟨n', hn', rfl⟩ := Instr.map_eq_lock hn'
      cases p with
      | run p =>
        cases p with
        | shutdown l => cases l <;> cases hn'
        | powerDown | spin => cases hn'
        | _ => cases h
      | printLock text next => cases hn'; rfl
      | _ => cases hn'
    | _ => cases h
  | panic stage message p => cases stage <;> cases hi; rfl

end Waits

namespace System

variable {boot : Boot} {s : System} {t u : Thread}

/-- A thread on the way from `t` along the waits: it holds `term_write_mutex`, or `JTAG_mutex` while
`term_printf` waits for that. -/
structure Ahead (s : System) (t u : Thread) : Prop where
  alive : s.terminated u = false
  other : u ≠ t
  holds : 0 < (s.place u).depth .term_write ∨ (s.crossing = true ∧ 0 < (s.place u).depth .JTAG)

theorem Safe.ahead_first (hs : s.Safe) (ht : s.Leaving t) (h : s.WaitsOn boot t u) : s.Ahead t u := by
  obtain ⟨-, m, n, hi, hholder, hne⟩ := h
  obtain rfl := Spot.lock_of_leaving ht.2 hi
  have hpos := (hs.held .term_write).holder hholder
  refine ⟨?_, hne, .inl hpos⟩
  cases hu : s.terminated u with
  | false => rfl
  | true =>
    have := hs.term_write u hu
    omega

theorem Safe.ahead_next {v : Thread} {m : Lock} {n : Spot} (hs : s.Safe)
    (hti : (s.place t).instr boot = .lock m n) (h : s.Ahead t u) (hw : s.WaitsOn boot u v) :
    s.Ahead t v := by
  obtain ⟨-, m, n, hi, hholder, hne⟩ := hw
  rcases h.holds with hwrite | ⟨hc, hjtag⟩
  · rcases Spot.lock_of_depth_term_write hwrite hi with hat | hcross
    · -- its own lock of `term_write_mutex` is not one it waits at
      obtain ⟨n', hn'⟩ := Spot.instr_of_atLock boot hat
      rw [hi] at hn'
      cases hn'
      have hv := (hs.held .term_write).holder hholder
      exact absurd ((hs.held .term_write).unique hv hwrite) hne
    · have hsend := Spot.thread_of_crosses (hs.inOrder u) hcross
      rw [hs.own u] at hsend
      obtain ⟨n', hn'⟩ := Spot.instr_of_crosses boot hcross
      rw [hi] at hn'
      cases hn'
      have hv := (hs.held .JTAG).holder hholder
      have hc : s.crossing = true := by
        rw [System.crossing, ← hsend]
        exact hcross
      obtain ⟨halive, hat⟩ := hs.crossing hc v hv
      refine ⟨halive, fun hvt => ?_, .inr ⟨hc, hv⟩⟩
      rw [hvt] at hv hat
      rw [Spot.lock_of_depth_JTAG hv hti] at hat
      cases hat
  · have hat := Spot.lock_of_depth_JTAG hjtag hi
    rw [(hs.crossing hc u hjtag).2] at hat
    cases hat

/-- **Nobody on the way to `power_down` waits for a thread that was terminated or that waits for it.** -/
theorem Safe.ahead (hs : s.Safe) (ht : s.Leaving t) (h : Relation.TransGen (s.WaitsOn boot) t u) :
    s.Ahead t u := by
  induction h with
  | single h => exact hs.ahead_first ht h
  | tail h hw ih =>
    obtain ⟨v, ⟨-, m, n, hi, -⟩, -⟩ := Relation.TransGen.head'_iff.mp h
    exact hs.ahead_next hi ih hw

end System

/-! ## How far it is -/

def PanicStage.rank : PanicStage → Nat
  | lock => 4
  | print => 3
  | unlock => 2
  | powerDown => 1
  | exit => 0

/-- The steps left past the command loop; the print of `main` is three of them. -/
def MainPoint.rank : MainPoint → Nat
  | shutdown l => l.length + 8
  | powerDown => 4
  | _ => 0

def MainPc.rank : MainPc → Nat
  | run p => p.rank
  | printLock _ p => 3 + p.rank
  | print _ p => 2 + p.rank
  | printUnlock p => 1 + p.rank
  | _ => 0

/-- The steps left in a section of a mutex. -/
def DebugPc.rank : DebugPc → Nat
  | initReset => 3
  | initPowerup | print .. => 2
  | initUnlock | printUnlock _ => 1
  | _ => 0

def HandlerPc.rank : HandlerPc → Nat
  | reset => 3
  | powerup => 2
  | signal => 1
  | wait _ => 0

def Pc.rank : Pc → Nat
  | main p => p.rank
  | dispatch p => p.rank
  | work _ p => p.rank
  | debug p => p.rank
  | handler p => p.rank

def Spot.rank : Spot → Nat
  | code p => p.rank
  | panic stage _ _ => stage.rank

/-- The contexts whose steps are counted: those on the way to `power_down`, those that hold a mutex on
that way, and the handler. -/
def Spot.presses : Spot → Bool
  | panic .. => true
  | code (.main p) => p.afterLoop || p.holds .term_write
  | code (.handler (.wait _)) => false
  | code (.handler _) => true
  | code p => p.holds .term_write || p.holds .JTAG

section Rank

variable {boot : Boot}

theorem MainPc.rank_next {p q : MainPc} (hp : p.afterLoop = true ∨ p.holds .term_write = true)
    (h : (p.code boot).Next q) : q.rank < p.rank := by
  cases p with
  | run p =>
    have hafter : p.afterLoop = true := by
      rcases hp with hp | hp
      · exact hp
      · cases hp
    cases p with
    | shutdown l =>
      cases l with
      | nil => cases h; decide
      | cons u l => cases h; simp [rank, MainPoint.rank]
    | powerDown => cases h; decide
    | spin => cases h
    | _ => cases hafter
  | printLock text next => cases h; simp [rank]
  | print text next => obtain ⟨_, rfl⟩ := h; simp [rank]
  | printUnlock next => cases h; simp [rank]
  | scanRead | scanUnlock => rcases hp with hp | hp <;> cases hp

theorem DebugPc.rank_next {p q : DebugPc} (hp : p.holds .term_write = true ∨ p.holds .JTAG = true)
    (h : p.code.Next q) : q.rank < p.rank := by
  have hdump : ∀ l, (dump l).rank = 0 := by
    intro l
    match l with
    | [] | some _ :: _ | none :: _ => rfl
  cases p with
  | initReset => cases h; decide
  | initPowerup => obtain ⟨_, rfl⟩ := h; exact Nat.lt_succ_self 1
  | initUnlock => cases h; rw [hdump]; exact Nat.zero_lt_one
  | print text rest => obtain ⟨_, rfl⟩ := h; exact Nat.lt_succ_self 1
  | printUnlock rest => cases h; rw [hdump]; exact Nat.zero_lt_one
  | _ => rcases hp with hp | hp <;> cases hp

theorem WorkPc.ne_wait_of_holds {p : WorkPc} {m : Lock} (h : p.holds m = true) : p ≠ .wait := by
  rintro rfl
  cases m <;> cases h

theorem DispatchPc.ne_wait_of_holds {p : DispatchPc} {m : Lock} (h : p.holds m = true) :
    p ≠ .wait ∧ ∀ svc, p ≠ .signal svc := by
  constructor
  · rintro rfl
    cases m <;> cases h
  · rintro svc rfl
    cases m <;> cases h

/-- Every step that counts brings it nearer. -/
theorem Spot.rank_next {p q : Spot} (hord : p.InOrder) (hp : p.presses = true)
    (h : (p.instr boot).Next q) : q.rank < p.rank := by
  cases p with
  | code p =>
    obtain ⟨q', hq', rfl⟩ := Instr.next_map h
    cases p with
    | main p =>
      obtain ⟨q'', hq'', rfl⟩ := Instr.next_map hq'
      exact MainPc.rank_next (Bool.or_eq_true_iff.mp hp) hq''
    | dispatch p =>
      obtain ⟨q'', hq'', rfl⟩ := Instr.next_map hq'
      have hne : p ≠ .wait ∧ ∀ svc, p ≠ .signal svc := by
        rcases Bool.or_eq_true_iff.mp hp with hp | hp
        · exact DispatchPc.ne_wait_of_holds (m := .term_write) hp
        · exact DispatchPc.ne_wait_of_holds (m := .JTAG) hp
      exact DispatchPc.rank_next hq'' hne.1 hne.2
    | work k p =>
      obtain ⟨q'', hq'', rfl⟩ := Instr.next_map hq'
      have hne : p ≠ .wait := by
        rcases Bool.or_eq_true_iff.mp hp with hp | hp
        · exact WorkPc.ne_wait_of_holds (m := .term_write) hp
        · exact WorkPc.ne_wait_of_holds (m := .JTAG) hp
      exact WorkPc.rank_next hq'' (WorkPc.Fits.inOrder hord) hne
    | debug p =>
      obtain ⟨q'', hq'', rfl⟩ := Instr.next_map hq'
      exact DebugPc.rank_next (Bool.or_eq_true_iff.mp hp) hq''
    | handler p =>
      obtain ⟨q'', hq'', rfl⟩ := Instr.next_map hq'
      cases p with
      | wait => cases hp
      | powerup => obtain ⟨_, rfl⟩ := hq''; exact Nat.lt_succ_self 1
      | reset | signal => cases hq''; decide
  | panic stage message p =>
    cases stage with
    | print =>
      obtain ⟨_, rfl⟩ := h
      split <;> simp [rank, PanicStage.rank]
    | lock | unlock | powerDown => cases h; exact Nat.lt_succ_self _
    | exit => cases h

/-- Nothing leads back from the way to `power_down`. -/
theorem Spot.leaving_next {p q : Spot} (hp : p.leaving = true) (h : (p.instr boot).Next q) :
    q.leaving = true := by
  cases p with
  | code p =>
    obtain ⟨q', hq', rfl⟩ := Instr.next_map h
    cases p with
    | main p =>
      obtain ⟨q'', hq'', rfl⟩ := Instr.next_map hq'
      exact MainPc.afterLoop_next hp hq''
    | _ => cases hp
  | panic stage message p =>
    cases stage with
    | print => obtain ⟨_, rfl⟩ := h; rfl
    | lock | unlock | powerDown => cases h; rfl
    | exit => cases h

theorem Spot.presses_of_leaving {p : Spot} (h : p.leaving = true) : p.presses = true := by
  cases p with
  | code p =>
    cases p with
    | main p => exact Bool.or_eq_true_iff.mpr (.inl h)
    | _ => cases h
  | panic stage message p => rfl

/-- A context that holds a mutex on the way counts, and does none of the steps the condition is about. -/
theorem Spot.presses_of_depth {p : Spot} (h : 0 < p.depth .term_write ∨ 0 < p.depth .JTAG) :
    p.presses = true ∧ p.terminates = none ∧ p.entersPrintf = false := by
  cases p with
  | panic stage message p => exact ⟨rfl, rfl, rfl⟩
  | code p =>
    have hholds : p.holds .term_write = true ∨ p.holds .JTAG = true := h.imp holds_of_depth holds_of_depth
    cases p with
    | main p =>
      have hwrite : p.holds .term_write = true := hholds.resolve_right fun hj => by cases hj
      refine ⟨Bool.or_eq_true_iff.mpr (.inr hwrite), ?_, rfl⟩
      cases p <;> first | rfl | cases hwrite
    | dispatch p => exact ⟨Bool.or_eq_true_iff.mpr hholds, rfl, rfl⟩
    | work k p =>
      refine ⟨Bool.or_eq_true_iff.mpr hholds, rfl, ?_⟩
      cases p with
      | outerLock svc arg => rcases hholds with hh | hh <;> cases hh
      | _ => rfl
    | debug p => exact ⟨Bool.or_eq_true_iff.mpr hholds, rfl, rfl⟩
    | handler p => rcases hholds with hh | hh <;> cases hh

/-- Nobody who counts is about to call `panic` in its code. -/
theorem Spot.presses_of_panic {p : Spot} {message : String} (h : p.instr boot = .panic message) :
    p.presses = false := by
  obtain ⟨p, rfl, hno⟩ := Spot.instr_panic h
  have hcode := Instr.map_eq_panic h
  cases p with
  | main p =>
    have hcode := Instr.map_eq_panic hcode
    cases p with
    | run p =>
      cases p with
      | panicked message => rfl
      | shutdown l => cases l <;> cases hcode
      | _ => cases hcode
    | _ => cases hcode
  | handler p => cases p <;> cases hcode
  | dispatch | work | debug => simp [presses, hno]

end Rank

/-! ## Getting there -/

/-- A number for each thread, added up. -/
def Thread.sum (f : Thread → Nat) : Nat :=
  f .main + f .dispatch + Worker.sum (fun k => f (.work k)) + f .debug + f .handler

theorem Thread.sum_lt {f g : Thread → Nat} (t : Thread) (ht : f t < g t)
    (h : ∀ u, u ≠ t → f u = g u) : sum f < sum g := by
  have hle : ∀ u, f u ≤ g u := by
    intro u
    by_cases hu : u = t
    · rw [hu]
      omega
    · rw [h u hu]
  have hmain := hle .main
  have hdispatch := hle .dispatch
  have hsend := hle (.work .send)
  have hrecv := hle (.work .recv)
  have hpow := hle (.work .pow)
  have hdebug := hle .debug
  have hhandler := hle .handler
  simp only [sum, Worker.sum]
  cases t with
  | work k => cases k <;> omega
  | _ => omega

/-- What the context has to do, if it counts. -/
def Spot.weight (p : Spot) : Nat := if p.presses then p.rank else 0

def System.rank (s : System) : Nat := Thread.sum fun t => (s.place t).weight

namespace System

variable {boot : Boot} {s s' : System} {t u w : Thread} {ans : Answer}

/-- A step of a context that counts goes along its code. -/
theorem stepOf_next (hp : (s.place t).presses = true) (h : s.stepOf boot t ans = some s') :
    ∃ q, ((s.place t).instr boot).Next q ∧ s'.place = update s.place t q ∧
      (s'.terminated = s.terminated ∨
        ∃ u, (s.place t).terminates = some u ∧ s'.terminated = update s.terminated u true) := by
  rcases stepOf_cases h with ⟨sh, q, he, rfl⟩ | ⟨q, hq, -, rfl⟩ | ⟨u, n, hi, rfl⟩ |
    ⟨message, hi, rfl⟩ | ⟨n, hi, rfl⟩
  · exact ⟨q, Instr.exec_next he, rfl, .inl rfl⟩
  · exact ⟨q, hq, rfl, .inl rfl⟩
  · obtain ⟨l, hl, rfl⟩ := Spot.instr_terminate hi
    refine ⟨_, ?_, rfl, .inr ⟨u, ?_, rfl⟩⟩
    · rw [hi]
      rfl
    · rw [hl]
      rfl
  · rw [Spot.presses_of_panic hi] at hp
    cases hp
  · refine ⟨n, ?_, rfl, .inl rfl⟩
    rw [hi]
    rfl

theorem rank_stepOf (hs : s.Safe) (hp : (s.place t).presses = true)
    (h : s.stepOf boot t ans = some s') : s'.rank < s.rank := by
  obtain ⟨q, hq, hplace, -⟩ := stepOf_next hp h
  have hlt := Spot.rank_next (hs.inOrder t) hp hq
  refine Thread.sum_lt t ?_ fun u hu => ?_
  · rw [hplace, update_self, Spot.weight, Spot.weight, if_pos hp]
    split
    · exact hlt
    · omega
  · rw [hplace, update_of_ne hu]

/-- An instruction that does not wait is carried out. -/
theorem stepOf_of_not_waits (h : ((s.place t).instr boot).waits = false) :
    ∃ s', s.stepOf boot t ans = some s' := by
  unfold stepOf
  cases hi : (s.place t).instr boot with
  | signal_wait | lock | done => rw [hi] at h; cases h
  | ack_intr b n => cases b <;> exact ⟨_, rfl⟩
  | _ => exact ⟨_, rfl⟩

/-- So is the lock of a mutex nobody else holds. -/
theorem stepOf_of_lock {m : Lock} {n : Spot} (hi : (s.place t).instr boot = .lock m n)
    (hm : ∀ u, (s.shared.mutex m).holder = some u → u = t) : ∃ s', s.stepOf boot t ans = some s' := by
  have hlock : ∃ l, (s.shared.mutex m).lock t = some l := by
    cases hmutex : s.shared.mutex m with
    | none => exact ⟨_, rfl⟩
    | some p =>
      obtain ⟨u, k⟩ := p
      have hu : u = t := hm u (by rw [hmutex]; rfl)
      exact ⟨some (u, k + 1), by simp [Mutex.lock, hu]⟩
  obtain ⟨l, hl⟩ := hlock
  unfold stepOf
  rw [hi]
  simp only [Instr.exec, hl, Option.map_some]
  exact ⟨_, rfl⟩

/-- One step nearer to `power_down`, by a step that meets the condition. -/
def Nearer (boot : Boot) (s : System) (t : Thread) : Prop :=
  ∃ w s', ((system boot).restrict LockOk).step (.step w Answer.empty) s = some s' ∧
    (s'.Safe ∧ s'.Leaving t) ∧ s'.rank < s.rank

theorem Safe.nearer (hs : s.Safe) (ht : s.Leaving t) (hready : s.ready w = true)
    (hp : (s.place w).presses = true) (hok : LockOk (.step w Answer.empty) s)
    (hterm : w ≠ t → (s.place w).terminates = none)
    (hcan : ∃ s', s.stepOf boot w Answer.empty = some s') : s.Nearer boot t := by
  obtain ⟨s', hs'⟩ := hcan
  have hstep : (system boot).step (.step w Answer.empty) s = some s' := by
    simp only [system, hready, if_true]
    exact hs'
  have hrestrict : ((system boot).restrict LockOk).step (.step w Answer.empty) s = some s' := by
    simp only [Machine.restrict, hok, if_true]
    exact hstep
  refine ⟨w, s', hrestrict, ⟨hs.step hok hstep, ?_⟩, rank_stepOf hs hp hs'⟩
  obtain ⟨q, hq, hplace, hterminated⟩ := stepOf_next hp hs'
  by_cases hwt : w = t
  · subst hwt
    refine ⟨?_, ?_⟩
    · rcases hterminated with he | ⟨u, hu, he⟩
      · rw [he]
        exact ht.1
      · -- `main` is not among the threads it terminates
        rw [he, update_of_ne (hs.terminates hu).2.2.symm]
        exact ht.1
    · rw [hplace, update_self]
      exact Spot.leaving_next ht.2 hq
  · refine ⟨?_, ?_⟩
    · rcases hterminated with he | ⟨u, hu, he⟩
      · rw [he]
        exact ht.1
      · rw [hterm hwt] at hu
        cases hu
    · rw [hplace, update_of_ne (Ne.symm hwt)]
      exact ht.2

/-- A context that holds a mutex on the way and need not wait goes on. -/
theorem Safe.nearer_holder (hs : s.Safe) (ht : s.Leaving t) (hidle : s.handlerIdle = true)
    (halive : s.terminated w = false)
    (hw : 0 < (s.place w).depth .term_write ∨ 0 < (s.place w).depth .JTAG)
    (hcan : ∃ s', s.stepOf boot w Answer.empty = some s') : s.Nearer boot t := by
  obtain ⟨hp, hterm, henters⟩ := Spot.presses_of_depth hw
  refine hs.nearer ht ?_ hp ⟨fun u hu => ?_, fun he => ?_⟩ (fun _ => hterm) hcan
  · simp [System.ready, halive, hidle]
  · rw [hterm] at hu
    cases hu
  · rw [henters] at he
    cases he

theorem Safe.not_past (hs : s.Safe) (hoff : s.off = false) (t : Thread) : (s.place t).past = false := by
  cases hp : (s.place t).past with
  | false => rfl
  | true =>
    rw [hs.past t hp] at hoff
    cases hoff

/-- While `term_printf` waits for `JTAG_mutex`, its holder goes on. -/
theorem Safe.nearer_of_JTAG (hs : s.Safe) (ht : s.Leaving t) (hidle : s.handlerIdle = true)
    (hoff : s.off = false) (hc : s.crossing = true) (hw : 0 < (s.place w).depth .JTAG) :
    s.Nearer boot t := by
  obtain ⟨halive, hat⟩ := hs.crossing hc w hw
  exact hs.nearer_holder ht hidle halive (.inr hw)
    (stepOf_of_not_waits (Spot.waits_of_depth_JTAG hw hat (hs.not_past hoff w)))

/-- The holder of `term_write_mutex` goes on, or waits for `JTAG_mutex` and its holder does. -/
theorem Safe.nearer_of_term_write (hs : s.Safe) (ht : s.Leaving t) (hidle : s.handlerIdle = true)
    (hoff : s.off = false) (hw : 0 < (s.place w).depth .term_write) : s.Nearer boot t := by
  have halive : s.terminated w = false := by
    cases hterm : s.terminated w with
    | false => rfl
    | true =>
      have := hs.term_write w hterm
      omega
  have hgo : (∃ s', s.stepOf boot w Answer.empty = some s') → s.Nearer boot t :=
    hs.nearer_holder ht hidle halive (.inl hw)
  cases hat : (s.place w).atLock with
  | true =>
    obtain ⟨n, hn⟩ := Spot.instr_of_atLock boot hat
    refine hgo (stepOf_of_lock hn fun u hu => ?_)
    exact (hs.held .term_write).unique ((hs.held .term_write).holder hu) hw
  | false =>
    rcases Spot.waits_of_depth_term_write boot hw hat (hs.not_past hoff w) with hgoes | hcross
    · exact hgo (stepOf_of_not_waits hgoes)
    · have hsend := Spot.thread_of_crosses (hs.inOrder w) hcross
      rw [hs.own w] at hsend
      have hc : s.crossing = true := by
        rw [System.crossing, ← hsend]
        exact hcross
      obtain ⟨n, hn⟩ := Spot.instr_of_crosses boot hcross
      by_cases hheld : ∃ v, 0 < (s.place v).depth .JTAG
      · obtain ⟨v, hv⟩ := hheld
        exact hs.nearer_of_JTAG ht hidle hoff hc hv
      · exact hgo (stepOf_of_lock hn fun u hu => absurd ⟨u, (hs.held .JTAG).holder hu⟩ hheld)

/-- The handler, once it has begun, goes on. -/
theorem Safe.nearer_of_handler (hs : s.Safe) (ht : s.Leaving t) (hidle : s.handlerIdle = false)
    (hoff : s.off = false) : s.Nearer boot t := by
  have hpast := hs.not_past hoff .handler
  have hown := hs.own .handler
  have hord := hs.inOrder .handler
  have halive : s.terminated .handler = false := by
    cases hterm : s.terminated .handler with
    | false => rfl
    | true => exact absurd (hs.spared _ hterm) (by decide)
  have hgoes : ((s.place .handler).instr boot).waits = false ∧ (s.place .handler).presses = true ∧
      (s.place .handler).terminates = none ∧ (s.place .handler).entersPrintf = false := by
    unfold handlerIdle at hidle
    cases hp : s.place .handler with
    | code p =>
      rw [hp] at hown hidle
      cases p with
      | handler p =>
        cases p with
        | wait init => cases hidle
        | _ => exact ⟨rfl, rfl, rfl, rfl⟩
      | _ => cases hown
    | panic stage message p =>
      rw [hp] at hpast hord hown
      cases stage with
      | lock => exact absurd rfl (hord.2 hown).1
      | exit => cases hpast
      | _ => exact ⟨rfl, rfl, rfl, rfl⟩
  obtain ⟨hwaits, hpress, hterm, henters⟩ := hgoes
  refine hs.nearer ht ?_ hpress ⟨fun u hu => ?_, fun he => ?_⟩ (fun _ => hterm)
    (stepOf_of_not_waits hwaits)
  · simp [System.ready, halive]
  · rw [hterm] at hu
    cases hu
  · rw [henters] at he
    cases he

/-- **A thread on its way to `power_down` gets nearer**, by a step of its own, or by one of the thread it
waits for, or of the one that waits for. -/
theorem Safe.progress (hs : s.Safe) (ht : s.Leaving t) (hoff : s.off = false) : s.Nearer boot t := by
  cases hidle : s.handlerIdle with
  | false => exact hs.nearer_of_handler ht hidle hoff
  | true =>
    have hready : s.ready t = true := by simp [System.ready, ht.1, hidle]
    have henters : (s.place t).entersPrintf = true → s.Frees := by
      rw [Spot.entersPrintf_of_leaving ht.2]
      exact fun h => by cases h
    have hgo : (∀ u ∈ (s.place t).terminates, (s.place u).depth .term_write = 0 ∧
        (0 < (s.place u).depth .JTAG → s.crossing = false)) →
        (∃ s', s.stepOf boot t Answer.empty = some s') → s.Nearer boot t :=
      fun hok => hs.nearer ht hready (Spot.presses_of_leaving ht.2) ⟨hok, henters⟩
        fun hne => absurd rfl hne
    cases hwaits : ((s.place t).instr boot).waits with
    | true =>
      obtain ⟨n, hn⟩ := Spot.lock_of_waits ht.2 hwaits (hs.not_past hoff t)
      by_cases hheld : ∃ u, (s.shared.mutex .term_write).holder = some u ∧ u ≠ t
      · obtain ⟨u, hu, -⟩ := hheld
        exact hs.nearer_of_term_write ht hidle hoff ((hs.held .term_write).holder hu)
      · refine hgo (fun u hu => ?_) (stepOf_of_lock hn fun u hu => ?_)
        · obtain ⟨n', hn'⟩ := Spot.instr_of_terminates boot hu
          rw [hn] at hn'
          cases hn'
        · by_contra hne
          exact hheld ⟨u, hu, hne⟩
    | false =>
      have hcan : ∃ s', s.stepOf boot t Answer.empty = some s' := stepOf_of_not_waits hwaits
      cases hterm : (s.place t).terminates with
      | none => exact hgo (fun u hu => by rw [hterm] at hu; cases hu) hcan
      | some u =>
        -- `main` lets the thread go on first where the condition asks for it
        by_cases hwrite : 0 < (s.place u).depth .term_write
        · exact hs.nearer_of_term_write ht hidle hoff hwrite
        · by_cases hjtag : 0 < (s.place u).depth .JTAG ∧ s.crossing = true
          · exact hs.nearer_of_JTAG ht hidle hoff hjtag.2 hjtag.1
          · refine hgo (fun v hv => ?_) hcan
            rw [hterm] at hv
            cases hv
            refine ⟨by omega, fun hpos => ?_⟩
            cases hc : s.crossing with
            | false => rfl
            | true => exact absurd ⟨hpos, hc⟩ hjtag

end System

/-- **Shutdown is never blocked by a mutex**, in a run whose steps meet `LockOk`: from a thread in `panic`,
or `main` past its command loop, the waits lead to no thread that was terminated and not back to the
thread itself; and the threads can go on to the call of `power_down`. -/
theorem shutdown_unblocked {boot : Boot} {s : System} {t : Thread}
    (hr : (system boot).ReachIf LockOk s) (ht : s.Leaving t) :
    (∀ u, Relation.TransGen (s.WaitsOn boot) t u → s.terminated u = false ∧ u ≠ t) ∧
      ∃ l s', (∀ a ∈ l, ∃ u, a = .step u Answer.empty) ∧
        ((system boot).restrict LockOk).run l s = some s' ∧ s'.off = true := by
  have hs := system_safe hr
  refine ⟨fun u hu => ?_, ?_⟩
  · have := hs.ahead ht hu
    exact ⟨this.alive, this.other⟩
  · refine Machine.exists_run_of_rank (I := fun s => s.Safe ∧ s.Leaving t) System.rank
      (fun s hI hG => ?_) ⟨hs, ht⟩
    obtain ⟨u, s', hstep, hI', hlt⟩ := hI.1.progress hI.2 (by simpa using hG)
    exact ⟨_, s', ⟨u, rfl⟩, hstep, hI', hlt⟩

/-! ## Runs -/

def System.fresh : System where
  shared := (Host.fresh (fun _ => 0) false false).shared
  place := fun t => .code (Pc.start t)
  terminated := fun _ => false
  off := false

theorem System.fresh_fresh : System.fresh.Fresh :=
  ⟨fun _ => rfl, fun _ => rfl, fun _ => rfl, rfl⟩

/-- `n` steps of a context. -/
def goesOn (t : Thread) (n : Nat) : List SystemAct := List.replicate n (.step t Answer.empty)

/-- A request to print, up to the lock of `JTAG_mutex` in `term_printf`. -/
def printRequest : List SystemAct :=
  [.edge] ++ goesOn .handler 4 ++ goesOn .dispatch 8 ++ goesOn (.work .send) 4

def System.waits (boot : Boot) (s : System) (t u : Thread) : Bool :=
  !s.terminated t &&
    match (s.place t).instr boot with
    | .lock m _ => (s.shared.mutex m).holder = some u && u ≠ t
    | _ => false

theorem System.waitsOn_of_waits {boot : Boot} {s : System} {t u : Thread} (h : s.waits boot t u = true) :
    s.WaitsOn boot t u := by
  obtain ⟨halive, hmatch⟩ := Bool.and_eq_true_iff.mp h
  refine ⟨by simpa using halive, ?_⟩
  split at hmatch
  · rename_i m n hi
    obtain ⟨hholder, hne⟩ := Bool.and_eq_true_iff.mp hmatch
    exact ⟨m, n, hi, of_decide_eq_true hholder, of_decide_eq_true hne⟩
  · cases hmatch

/-- The dispatcher's first read fails and nobody else is at work. -/
theorem shutdown_unblocked_alone :
    ∃ s, (system .empty).ReachIf LockOk s ∧ s.Leaving .dispatch ∧
      ∃ l s', ((system .empty).restrict LockOk).run l s = some s' ∧ s'.off = true := by
  obtain ⟨s, hs, hp⟩ := Machine.exists_reach_of_run (M := (system .empty).restrict LockOk)
    (p := fun s => !s.terminated .dispatch && (s.place .dispatch).leaving) System.fresh_fresh
    ([.edge] ++ goesOn .handler 4 ++ goesOn .dispatch 2 ++
      [.fail .dispatch "ERROR: JTAG IR. Got 0 instead of 1\r\n"]) (by decide +kernel)
  have hr := Machine.ReachIf.of_restrict hs
  obtain ⟨halive, hleaving⟩ := Bool.and_eq_true_iff.mp hp
  have ht : s.Leaving .dispatch := ⟨by simpa using halive, hleaving⟩
  obtain ⟨l, s', -, hrun, hoff⟩ := (shutdown_unblocked hr ht).2
  exact ⟨s, hr, ht, l, s', hrun, hoff⟩

/-- The dispatcher fails with `JTAG_mutex` held while `term_printf` waits for it: each waits for the
other.  And `main` reads `quit` at that place of `term_printf`, terminates its thread, and then waits for
the `term_write_mutex` that thread held. -/
theorem shutdown_blocked :
    (∃ s, (system .empty).Reach s ∧ s.Leaving .dispatch ∧
      s.WaitsOn .empty .dispatch (.work .send) ∧ s.WaitsOn .empty (.work .send) .dispatch) ∧
    ∃ boot s, (system boot).Reach s ∧ s.Leaving .main ∧ s.WaitsOn boot .main (.work .send) ∧
      s.terminated (.work .send) = true := by
  constructor
  · obtain ⟨s, hs, hp⟩ := Machine.exists_reach_of_run (M := system .empty)
      (p := fun s => (s.place .dispatch).leaving && s.waits .empty .dispatch (.work .send) &&
        s.waits .empty (.work .send) .dispatch) System.fresh_fresh
      (printRequest ++ [.edge] ++ goesOn .handler 2 ++ goesOn .dispatch 2 ++
        [.fail .dispatch "ERROR: JTAG IR. Got 0 instead of 1\r\n"]) (by decide +kernel)
    simp only [Bool.and_eq_true] at hp
    obtain ⟨⟨hleaving, hfirst⟩, hsecond⟩ := hp
    have hwaits := System.waitsOn_of_waits hfirst
    exact ⟨s, hs, ⟨hwaits.1, hleaving⟩, hwaits, System.waitsOn_of_waits hsecond⟩
  · -- `main` has loaded an empty program and waits for a line
    obtain ⟨s, hs, hp⟩ := Machine.exists_reach_of_run (M := system ⟨some [], fun _ => 0, []⟩)
      (p := fun s => (s.place .main).leaving && s.waits ⟨some [], fun _ => 0, []⟩ .main (.work .send) &&
        s.terminated (.work .send)) System.fresh_fresh
      (goesOn .main 24 ++ printRequest ++ [.step .main ⟨0, some quitLine⟩] ++ goesOn .main 7)
      (by decide +kernel)
    simp only [Bool.and_eq_true] at hp
    obtain ⟨⟨hleaving, hwaits⟩, hterm⟩ := hp
    have hwaits := System.waitsOn_of_waits hwaits
    exact ⟨_, s, hs, ⟨hwaits.1, hleaving⟩, hwaits, hterm⟩

end Expedition
