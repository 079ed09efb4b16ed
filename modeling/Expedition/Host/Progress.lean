import Expedition.Host.Discipline

/-!
# The loops get on

Left alone, the host comes to rest and does not get stuck before:

* `Host.rank_lt` — every step of the host lowers a number, so without new edges of `req_intr` it takes
  finitely many.
* `Host.runs` — a host with something left to do can take a step.  The mutexes are taken in one
  order, the one of a service before `JTAG_mutex`, so whoever waits, waits in the end for a thread
  that can go on.
-/

namespace Expedition

open Function

/-! ## Termination -/

/-- A bound for the steps a worker takes before it waits again. -/
def WorkPc.rank : WorkPc → Nat
  | wait | panicked _ => 0
  | ackUnlock _ => 1
  | ackLow _ => 2
  | ackHigh _ => 3
  | ackType _ => 4
  | ackRet _ => 5
  | ackLock _ => 6
  | leave _ => 7
  | outerUnlock _ => 8
  | rbWrite _ _ _ ws => 9 + ws.length
  | rbLock _ _ => 10 + BUF_WORDS
  | powUnlock _ => 11 + BUF_WORDS
  | receive _ _ => 12 + BUF_WORDS
  | transmit _ _ => 9
  | wbUnlock _ _ => 10
  | wbRead _ i _ => 10 + (BUF_WORDS - i)
  | wbLock _ => 11 + BUF_WORDS
  | outerLock _ _ | isOpen _ _ => 13 + BUF_WORDS
  | enter _ _ => 14 + BUF_WORDS
  | size _ => 15 + BUF_WORDS
  | switch => 16 + BUF_WORDS

/-- What a signal sets in motion. -/
def WorkPc.signalled : Nat := 17 + BUF_WORDS

/-- The same for the dispatcher. -/
def DispatchPc.rank : DispatchPc → Nat
  | wait => 0
  | printUnlock => 1
  | print _ => 2
  | printLock _ => 3
  | signal _ => 1 + WorkPc.signalled
  | storeArg _ _ => 2 + WorkPc.signalled
  | storeType _ _ => 3 + WorkPc.signalled
  | unlock _ _ => 4 + WorkPc.signalled
  | clear _ _ => 5 + WorkPc.signalled
  | readVal _ => 6 + WorkPc.signalled
  | readType => 7 + WorkPc.signalled
  | lock => 8 + WorkPc.signalled

def DispatchPc.signalled : Nat := 9 + WorkPc.signalled

/-- What worker `k` has to do. -/
def Host.workRank (h : Host) (k : Worker) : Nat :=
  (if h.shared.flag (.work k) then WorkPc.signalled else 0) + (h.work k).rank

/-- What the handler and the dispatcher have to do. -/
def Host.dispatchRank (h : Host) : Nat :=
  (if h.irq then 1 + DispatchPc.signalled else 0) +
    (if h.shared.flag .dispatch then DispatchPc.signalled else 0) + h.dispatch.rank

def Host.rank (h : Host) : Nat := h.dispatchRank + Worker.sum h.workRank

theorem WorkPc.ofType_rank (k : Worker) (v : Word) : (ofType k v).rank < switch.rank := by
  rcases ofType_cases k v with ⟨svc, -, h | h | h⟩ | ⟨m, h⟩ <;> rw [h] <;> simp only [rank] <;> omega

theorem WorkPc.rank_next {k : Worker} {p q : WorkPc} (h : (p.code k).Next q) (hp : p.InOrder)
    (hw : p ≠ .wait) : q.rank < p.rank := by
  cases goes h with
  | wake => exact absurd rfl hw
  | choose v => exact ofType_rank k v
  | wbMore svc i buf buf' hi =>
    have hlt : i < BUF_WORDS := hp
    simp only [rank]
    omega
  | wbLast svc i buf buf' =>
    have hlt : i < BUF_WORDS := hp
    simp only [rank]
    omega
  | rbLock svc reply =>
    have hlen := length_packWords_le BUF_WORDS reply
    simp only [rank]
    omega
  | rbWrite svc reply i w ws => simp [rank]
  | scanned reply i => simp [rank]
  | copied svc reply i => simp [rank]
  | _ => simp only [rank]; omega

theorem DispatchPc.rank_next {p q : DispatchPc} (h : p.code.Next q) (hw : p ≠ .wait)
    (hs : ∀ svc, p ≠ .signal svc) : q.rank < p.rank := by
  cases p with
  | wait => exact absurd rfl hw
  | signal svc => exact absurd rfl (hs svc)
  | readType => obtain ⟨v, rfl⟩ := h; simp [rank]
  | readVal type => obtain ⟨v, rfl⟩ := h; simp [rank]
  | print type => obtain ⟨ans, rfl⟩ := h; simp [rank]
  | unlock type val =>
    cases h
    unfold switch
    split <;> simp only [rank] <;> omega
  | storeType svc val =>
    cases h
    split <;> simp [rank]
  | _ => cases h; simp [rank]

/-- Some thread of the host can take a step, whatever the outside answers. -/
def Host.Runs (h : Host) : Prop :=
  ∀ ans, (∃ h', h.step (.dispatch ans) = some h') ∨ ∃ k h', h.step (.work k ans) = some h'

/-- The instruction waits for nothing. -/
def Instr.Free {P : Type} : Instr P → Prop
  | .signal_wait _ | .lock _ _ | .scans _ _ | .reset _ | .terminate _ _ | .panic _ | .power_down _
  | .done => False
  | _ => True

theorem Instr.Free.exec {P : Type} {i : Instr P} (hi : i.Free) (t : Thread) (ans : Answer)
    (s : Shared) : ∃ r, i.exec t ans s = some r := by
  cases i with
  | ack_intr b n => cases b <;> exact ⟨_, rfl⟩
  | signal_wait | lock | scans | reset | terminate | panic | power_down | done => cases hi
  | _ => exact ⟨_, rfl⟩

theorem Instr.exec_lock_free {P : Type} {m : Lock} {n : P} {s : Shared} (hm : s.mutex m = none)
    (t : Thread) (ans : Answer) : ∃ r, (Instr.lock m n).exec t ans s = some r := by
  refine ⟨({ s with mutex := update s.mutex m (some (t, 1)) }, n), ?_⟩
  simp only [exec, hm]
  rfl

theorem DispatchPc.free_of_holds {p : DispatchPc} {m : Lock} (h : p.holds m = true) :
    p.code.Free := by
  cases m with
  | JTAG => cases p <;> trivial
  | term_write => cases p <;> trivial
  | _ => cases h

theorem WorkPc.free_of_inJTAG {p : WorkPc} {k : Worker} (h : p.inJTAG = true) :
    (p.code k).Free := by
  cases p with
  | rbWrite svc reply i ws => cases ws <;> trivial
  | _ => trivial

theorem WorkPc.free_of_holds {p : WorkPc} {m : Lock} {k : Worker} (h : p.holds m = true) :
    (p.code k).Free ∨ ∃ n, p.code k = .lock .JTAG n := by
  by_cases hm : m = .JTAG
  · subst hm
    exact .inl (free_of_inJTAG h)
  · have hout : p.outerHeld ≠ none := by
      intro hnone
      cases m with
      | JTAG => exact hm rfl
      | _ => simp [holds, hnone] at h
    cases p with
    | wbLock svc => exact .inr ⟨_, rfl⟩
    | rbLock svc reply => exact .inr ⟨_, rfl⟩
    | rbWrite svc reply i ws => cases ws <;> exact .inl trivial
    | _ => first | exact .inl trivial | exact absurd rfl hout

section Runs

variable {h : Host}

theorem Host.runs_dispatch (hd : ∀ ans, ∃ r, h.dispatch.code.exec .dispatch ans h.shared = some r) :
    h.Runs := by
  intro ans
  obtain ⟨r, hr⟩ := hd ans
  refine .inl ⟨{ h with shared := r.1, dispatch := r.2 }, ?_⟩
  simp only [Host.step, hr, Option.map_some]

theorem Host.runs_work {k : Worker}
    (hk : ∀ ans, ∃ r, ((h.work k).code k).exec (.work k) ans h.shared = some r) : h.Runs := by
  intro ans
  obtain ⟨r, hr⟩ := hk ans
  refine .inr ⟨k, { h with shared := r.1, work := update h.work k r.2 }, ?_⟩
  simp only [Host.step, hr, Option.map_some]

/-- A thread at its lock of `m` can go on, or a thread holds `m`. -/
theorem Host.Held.lock_or {m : Lock} {P : Type} (hh : h.Held m) (n : P) :
    (∀ t ans, ∃ r, (Instr.lock m n).exec t ans h.shared = some r) ∨ ∃ t, h.inside m t = true := by
  cases hm : h.shared.mutex m with
  | none => exact .inl fun t ans => Instr.exec_lock_free hm t ans
  | some p => exact .inr ⟨p.1, hh.inside p.1 p.2 hm⟩

/-- Nobody waits inside a section of `JTAG_mutex`. -/
theorem Host.runs_of_inJTAG {t : Thread} (ht : h.inside .JTAG t = true) : h.Runs := by
  cases t with
  | dispatch => exact runs_dispatch fun ans => (DispatchPc.free_of_holds (m := .JTAG) ht).exec _ ans _
  | work k => exact runs_work fun ans => (WorkPc.free_of_inJTAG ht).exec (.work k) ans _
  | _ => cases ht

/-- A thread at its lock of `JTAG_mutex` can go on, or the one that holds it can. -/
theorem Host.runs_of_lockJTAG (hj : h.Held .JTAG) {k : Worker} {n : WorkPc}
    (hp : (h.work k).code k = .lock .JTAG n) : h.Runs := by
  rcases hj.lock_or n with hlock | ⟨u, hu⟩
  · exact runs_work (k := k) fun ans => by rw [hp]; exact hlock _ ans
  · exact runs_of_inJTAG hu

/-- Inside the section of another mutex a thread waits for `JTAG_mutex` at most. -/
theorem Host.runs_of_inside (hj : h.Held .JTAG) {m : Lock} {t : Thread}
    (ht : h.inside m t = true) : h.Runs := by
  cases t with
  | dispatch => exact runs_dispatch fun ans => (DispatchPc.free_of_holds (m := m) ht).exec _ ans _
  | work k =>
    rcases WorkPc.free_of_holds (m := m) (k := k) ht with hfree | ⟨n, hn⟩
    · exact runs_work fun ans => hfree.exec (.work k) ans _
    · exact runs_of_lockJTAG hj hn
  | _ => cases ht

/-- **A host with something left to do does not get stuck**: the edge of an interrupt is pending, or
a thread that is signalled or not in its `signal_wait` can go on, or another one can. -/
theorem Host.runs (hh : ∀ m, h.Held m) (hcalm : ∀ k m, h.work k ≠ .panicked m)
    (hbusy : (h.dispatch ≠ .wait ∨ h.shared.flag .dispatch = true) ∨
      ∃ k, h.work k ≠ .wait ∨ h.shared.flag (.work k) = true) : h.Runs := by
  rcases hbusy with hd | ⟨k, hk⟩
  · cases hp : h.dispatch with
    | wait =>
      have hf : h.shared.flag .dispatch = true := hd.resolve_left (not_not_intro hp)
      refine runs_dispatch fun ans => ?_
      rw [hp]
      exact ⟨_, if_pos hf⟩
    | lock =>
      rcases (hh .JTAG).lock_or DispatchPc.readType with hlock | ⟨u, hu⟩
      · exact runs_dispatch fun ans => by rw [hp]; exact hlock _ ans
      · exact runs_of_inJTAG hu
    | printLock type =>
      rcases (hh .term_write).lock_or (DispatchPc.print type) with hlock | ⟨u, hu⟩
      · exact runs_dispatch fun ans => by rw [hp]; exact hlock _ ans
      · exact runs_of_inside (hh .JTAG) hu
    | _ =>
      refine runs_dispatch fun ans => Instr.Free.exec ?_ _ ans _
      rw [hp]
      trivial
  · cases hp : h.work k with
    | wait =>
      have hf : h.shared.flag (.work k) = true := hk.resolve_left (not_not_intro hp)
      refine runs_work (k := k) fun ans => ?_
      rw [hp]
      exact ⟨_, if_pos hf⟩
    | outerLock svc arg =>
      rcases (hh (svc.outerLock.getD .pow_sensr)).lock_or (WorkPc.work svc arg) with hlock | ⟨u, hu⟩
      · exact runs_work (k := k) fun ans => by rw [hp]; exact hlock _ ans
      · exact runs_of_inside (hh .JTAG) hu
    | wbLock svc => exact runs_of_lockJTAG (hh .JTAG) (by rw [hp]; rfl)
    | rbLock svc reply => exact runs_of_lockJTAG (hh .JTAG) (by rw [hp]; rfl)
    | ackLock o => exact runs_of_lockJTAG (hh .JTAG) (by rw [hp]; rfl)
    | panicked m => exact absurd hp (hcalm k m)
    | rbWrite svc reply i ws =>
      refine runs_work (k := k) fun ans => Instr.Free.exec ?_ (.work k) ans _
      rw [hp]
      cases ws <;> trivial
    | _ =>
      refine runs_work (k := k) fun ans => Instr.Free.exec ?_ (.work k) ans _
      rw [hp]
      trivial

end Runs

end Expedition
