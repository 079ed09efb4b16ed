import Expedition.Host.Discipline

/-!
# What a pulse of `ack_intr` publishes

Whatever the chip does, at every pulse the last writes of ACK_RETURN_VAL and ACK_TYPE are the return
value and the acknowledge code of one run of a service, made by the pulsing worker in its present
round (`ack_pulses_consistent`).  The argument is the lock discipline: between its first write and
its pulse a worker holds `JTAG_mutex`, and every write of another thread is made under it.
-/

namespace Expedition

open Function

/-- The last host write to an address: by whom, in which round, and of which value. -/
def lastWrite (a : Word) : List Event → Option (Thread × Nat × Word)
  | [] => none
  | .write t i b v :: l => if b = a then some (t, i, v) else lastWrite a l
  | _ :: l => lastWrite a l

/-- A pulse publishes one service run of the pulsing worker, in its present round. -/
def PulseOk : Event → List Event → Prop
  | .pulse t i _ _ _, l => ∃ o, .ret t i o ∈ l ∧
      lastWrite ACK_RETURN_VAL l = some (t, i, o.rtn) ∧ lastWrite ACK_TYPE l = some (t, i, o.svc.ack)
  | _, _ => True

/-- Every pulse in the log does. -/
def PulsesOk : List Event → Prop
  | [] => True
  | e :: l => PulseOk e l ∧ PulsesOk l

section Instr

variable {P : Type} {t : Thread} {ans : Answer} {s s' : Shared} {i : Instr P} {p : P}

theorem Instr.exec_log (h : i.exec t ans s = some (s', p)) :
    s'.log = s.log ∨ ∃ e, s'.log = e :: s.log ∧ (∀ u n a v, e = .write u n a v →
      u = t ∧ n = s.iter t ∧ ∃ q, i = .writeMemory a v q) ∧
      (∀ u n a r b, e = .pulse u n a r b → ∃ q, i = .ack_intr true q) := by
  cases i with
  | signal_wait n =>
    obtain ⟨-, rfl, -⟩ := exec_signal_wait h
    exact .inl rfl
  | lock m n =>
    obtain ⟨_, -, rfl, -⟩ := exec_lock h
    exact .inl rfl
  | ack_intr b n =>
    cases b
    · cases h; exact .inl rfl
    · cases h; exact .inr ⟨_, rfl, by simp, by simp⟩
  | writeMemory a v n =>
    cases h
    refine .inr ⟨_, rfl, ?_, by simp⟩
    rintro u m a' v' ⟨⟩
    exact ⟨rfl, rfl, _, rfl⟩
  | signal_set u n => cases h; exact .inr ⟨_, rfl, by simp, by simp⟩
  | readMemory a n => cases h; exact .inr ⟨_, rfl, by simp, by simp⟩
  | call svc arg n => cases h; exact .inr ⟨_, rfl, by simp, by simp⟩
  | ret o n => cases h; exact .inr ⟨_, rfl, by simp, by simp⟩
  | outside c n => cases h; exact .inr ⟨_, rfl, by simp, by simp⟩
  | unlock m n => cases h; exact .inl rfl
  | load g n => cases h; exact .inl rfl
  | store g v n => cases h; exact .inl rfl
  | _ => cases h

theorem Instr.exec_mem_log (h : i.exec t ans s = some (s', p)) {e : Event} (he : e ∈ s.log) :
    e ∈ s'.log := by
  rcases exec_log h with hl | ⟨e', hl, -⟩
  · rw [hl]; exact he
  · rw [hl]; exact List.mem_cons_of_mem _ he

/-- A step that is no memory write leaves the last writes. -/
theorem Instr.exec_lastWrite (h : i.exec t ans s = some (s', p))
    (hi : ∀ a v q, i ≠ .writeMemory a v q) (a : Word) : lastWrite a s'.log = lastWrite a s.log := by
  rcases exec_log h with hl | ⟨e, hl, hw, -⟩
  · rw [hl]
  · rw [hl]
    cases e with
    | write u n b v =>
      obtain ⟨-, -, q, hq⟩ := hw u n b v rfl
      exact absurd hq (hi b v q)
    | _ => rfl

/-- A step that is no pulse keeps the pulses in order. -/
theorem Instr.exec_pulses (h : i.exec t ans s = some (s', p)) (hi : ∀ q, i ≠ .ack_intr true q)
    (hp : PulsesOk s.log) : PulsesOk s'.log := by
  rcases exec_log h with hl | ⟨e, hl, -, hpulse⟩
  · rw [hl]; exact hp
  · rw [hl]
    cases e with
    | pulse u n a r b =>
      obtain ⟨q, hq⟩ := hpulse u n a r b rfl
      exact absurd hq (hi q)
    | _ => exact ⟨trivial, hp⟩

theorem Instr.exec_iter (h : i.exec t ans s = some (s', p)) {u : Thread} (hu : u ≠ t) :
    s'.iter u = s.iter u := by
  cases i with
  | signal_wait n =>
    obtain ⟨-, rfl, -⟩ := exec_signal_wait h
    exact update_of_ne hu _ _
  | lock m n =>
    obtain ⟨_, -, rfl, -⟩ := exec_lock h
    rfl
  | ack_intr b n => cases b <;> (cases h; rfl)
  | _ => cases h <;> rfl

end Instr

/-! ## Between a service's return and the pulse -/

/-- The outcome a worker has still to publish. -/
def WorkPc.publishing : WorkPc → Option Outcome
  | ackLock o | ackRet o | ackType o | ackHigh o => some o
  | _ => none

/-- ACK_RETURN_VAL is written, the pulse is to come. -/
def WorkPc.retWritten : WorkPc → Bool
  | ackType _ | ackHigh _ => true
  | _ => false

/-- ACK_TYPE is written too. -/
def WorkPc.typeWritten : WorkPc → Bool
  | ackHigh _ => true
  | _ => false

/-- Between its first write and its pulse a worker holds `JTAG_mutex`. -/
theorem WorkPc.inJTAG_of_written {p : WorkPc} (h : p.retWritten = true ∨ p.typeWritten = true) :
    p.inJTAG = true := by
  revert h
  cases p <;> simp [retWritten, typeWritten, inJTAG]

/-- What is known of a worker that has an outcome to publish. -/
structure Publishes (s : Shared) (k : Worker) (p : WorkPc) : Prop where
  returned : ∀ o, p.publishing = some o → .ret (.work k) (s.iter (.work k)) o ∈ s.log
  ret : ∀ o, p.publishing = some o → p.retWritten = true →
    lastWrite ACK_RETURN_VAL s.log = some (.work k, s.iter (.work k), o.rtn)
  type : ∀ o, p.publishing = some o → p.typeWritten = true →
    lastWrite ACK_TYPE s.log = some (.work k, s.iter (.work k), o.svc.ack)

/-- A step of another thread keeps it, because that thread writes nothing: the worker is inside a
section of `JTAG_mutex` from its first write on. -/
theorem Publishes.other {P : Type} {s s' : Shared} {k : Worker} {p : WorkPc} {t : Thread}
    {ans : Answer} {i : Instr P} {q : P} (hp : Publishes s k p)
    (h : i.exec t ans s = some (s', q)) (ht : t ≠ .work k)
    (hquiet : p.inJTAG = true → ∀ a v q, i ≠ .writeMemory a v q) : Publishes s' k p := by
  have hiter := Instr.exec_iter h (Ne.symm ht)
  refine ⟨fun o ho => ?_, fun o ho hr => ?_, fun o ho hr => ?_⟩
  · rw [hiter]
    exact Instr.exec_mem_log h (hp.returned o ho)
  · rw [hiter, Instr.exec_lastWrite h (hquiet (WorkPc.inJTAG_of_written (.inl hr)))]
    exact hp.ret o ho hr
  · rw [hiter, Instr.exec_lastWrite h (hquiet (WorkPc.inJTAG_of_written (.inr hr)))]
    exact hp.type o ho hr

/-- Nothing is known, and nothing needed, of a worker without an outcome. -/
theorem Publishes.none {s : Shared} {k : Worker} {p : WorkPc} (h : p.publishing = none) :
    Publishes s k p := by
  refine ⟨fun o ho => ?_, fun o ho => ?_, fun o ho => ?_⟩ <;> rw [h] at ho <;> cases ho

/-- The outcomes come from `leave` and go with the pulse. -/
theorem WorkPc.next_publishing {k : Worker} {p q : WorkPc} (h : (p.code k).Next q)
    (hleave : ∀ o, p ≠ .leave o) (hpulse : ∀ o, p ≠ .ackHigh o) : q.publishing = p.publishing := by
  cases goes h with
  | choose v => rcases ofType_cases k v with ⟨svc, -, h | h | h⟩ | ⟨m, h⟩ <;> rw [h] <;> rfl
  | leave o => exact absurd rfl (hleave o)
  | ackHigh o => exact absurd rfl (hpulse o)
  | _ => rfl

/-- The worker's own step: what it writes is what it is to have written. -/
theorem Publishes.own {s s' : Shared} {k : Worker} {p q : WorkPc} {ans : Answer}
    (hp : Publishes s k p) (h : (p.code k).exec (.work k) ans s = some (s', q)) :
    Publishes s' k q := by
  have hnext := Instr.exec_next h
  cases p with
  | leave o =>
    cases h
    refine ⟨fun o' ho => ?_, (fun _ _ hr => nomatch hr), (fun _ _ hr => nomatch hr)⟩
    cases ho
    exact List.mem_cons_self
  | ackLock o =>
    obtain ⟨l, -, rfl, rfl⟩ := Instr.exec_lock h
    exact ⟨hp.returned, (fun _ _ hr => nomatch hr), (fun _ _ hr => nomatch hr)⟩
  | ackRet o =>
    cases h
    refine ⟨fun o' ho => ?_, fun o' ho _ => ?_, (fun _ _ hr => nomatch hr)⟩
    · exact List.mem_cons_of_mem _ (hp.returned o' ho)
    · cases ho
      exact if_pos rfl
  | ackType o =>
    have hret := hp.ret o rfl rfl
    cases h
    refine ⟨fun o' ho => ?_, fun o' ho _ => ?_, fun o' ho _ => ?_⟩
    · exact List.mem_cons_of_mem _ (hp.returned o' ho)
    · cases ho
      exact (if_neg (by decide)).trans hret
    · cases ho
      exact if_pos rfl
  | ackHigh o => cases h; exact .none rfl
  | _ => exact .none (WorkPc.next_publishing hnext (by simp) (by simp))

/-- A worker pulses only with its outcome published. -/
theorem Publishes.pulses {s s' : Shared} {k : Worker} {p q : WorkPc} {ans : Answer}
    (hp : Publishes s k p) (h : (p.code k).exec (.work k) ans s = some (s', q))
    (hl : PulsesOk s.log) : PulsesOk s'.log := by
  by_cases hpulse : ∃ o, p = .ackHigh o
  · obtain ⟨o, rfl⟩ := hpulse
    cases h
    exact ⟨⟨o, hp.returned o rfl, hp.ret o rfl rfl, hp.type o rfl rfl⟩, hl⟩
  · exact Instr.exec_pulses h (WorkPc.code_ne_pulse fun o ho => hpulse ⟨o, ho⟩) hl

/-- The workers' outcomes and the pulses so far. -/
structure Host.AckOk (h : Host) : Prop where
  publishes : ∀ k, Publishes h.shared k (h.work k)
  pulses : PulsesOk h.shared.log

theorem Host.AckOk.step {a : HostAct} {h h' : Host} (hj : h.Held .JTAG) (hh : h.AckOk)
    (hs : h.step a = some h') : h'.AckOk := by
  cases a with
  | handler =>
    simp only [Host.step] at hs
    split at hs
    · cases hs
      exact ⟨fun k => ⟨(hh.publishes k).returned, (hh.publishes k).ret, (hh.publishes k).type⟩, hh.pulses⟩
    · cases hs
  | dispatch ans =>
    simp only [Host.step, Option.map_eq_some_iff] at hs
    obtain ⟨⟨s, p⟩, he, rfl⟩ := hs
    refine ⟨fun k => (hh.publishes k).other he (by simp) fun hin a v q hq => ?_, ?_⟩
    · exact hj.not_both (DispatchPc.write_inJTAG hq) hin
    · refine Instr.exec_pulses he (fun n hn => ?_) hh.pulses
      generalize h.dispatch = d at hn
      cases d <;> cases hn
  | work k ans =>
    simp only [Host.step, Option.map_eq_some_iff] at hs
    obtain ⟨⟨s, p⟩, he, rfl⟩ := hs
    refine ⟨fun k' => ?_, (hh.publishes k).pulses he hh.pulses⟩
    by_cases hkk : k' = k
    · subst hkk
      simpa using (hh.publishes k').own he
    · have hquiet : (h.work k').inJTAG = true →
          ∀ a v q, (h.work k).code k ≠ .writeMemory a v q := by
        intro hin a v q hq
        exact hkk (hj.worker_unique hin (WorkPc.write_inJTAG hq))
      have hother := (hh.publishes k').other he (by simpa using Ne.symm hkk) hquiet
      simpa [hkk] using hother

theorem Host.Fresh.ackOk {h : Host} (hf : h.Fresh) : h.AckOk := by
  refine ⟨fun k => .none (by rw [hf.work]; rfl), ?_⟩
  rw [hf.log]
  trivial

/-- **No loop panics and every pulse is consistent**, whatever the chip does and however the threads
interleave: at each pulse of `ack_intr` the last host writes of ACK_RETURN_VAL and ACK_TYPE are by
the pulsing worker in its present round, the value returned by a service it ran in that round and
the code of that same service. -/
theorem ack_pulses_consistent {h : Host} (hr : anyChip.Reach h) :
    (∀ k m, h.work k ≠ .panicked m) ∧ PulsesOk h.shared.log := by
  refine ⟨(types_set hr).calm, ?_⟩
  have hack : h.AckOk := by
    refine hr.invariant_of (I := Host.AckOk) (fun _ hr => lock_sections hr .JTAG)
      (fun h (hf : h.Fresh) => hf.ackOk) ?_
    rintro (a | c) h h' hj hh - hs
    · exact hh.step hj hs
    · cases hs
      cases c <;> exact ⟨fun k => ⟨(hh.publishes k).returned, (hh.publishes k).ret,
        (hh.publishes k).type⟩, hh.pulses⟩
  exact hack.pulses

/-- The chip asks for an empty string to be printed, and is acknowledged. -/
def printRun : List (HostAct ⊕ ChipAct) :=
  [.inr (.write IO_TYPE TERM_PRINT_REQ), .inr .edge, .inl .handler] ++
    List.replicate 8 (.inl (.dispatch .empty)) ++ List.replicate 16 (.inl (.work .send .empty))

theorem ack_pulses_consistent_print :
    ∃ h, anyChip.Reach h ∧ .pulse (.work .send) 1 PRINT_ACK 0 (readbuf fun _ => 0) ∈ h.shared.log ∧
      (∀ k m, h.work k ≠ .panicked m) ∧ PulsesOk h.shared.log := by
  obtain ⟨h, hr, hlog⟩ := Machine.exists_reach_of_run (M := anyChip)
    (p := fun h => decide (.pulse (.work .send) 1 PRINT_ACK 0 (readbuf fun _ => 0) ∈ h.shared.log))
    (Host.fresh_fresh (fun _ => 0) false false) printRun (by decide)
  exact ⟨h, hr, of_decide_eq_true hlog, ack_pulses_consistent hr⟩

end Expedition
