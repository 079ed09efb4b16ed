import Expedition.Host.Posting

/-!
# From the dispatcher to the workers

`dispatch_loop` frees the request word before the service has run, and hands a request over through
one type variable for each worker and a flag that does not count.  So two requests for one worker can
be under way at the same time.

* `HandoverOk` — the condition on a step under which nothing gets mixed up: no signal finds the
  worker's flag still set, and no type variable is changed while a request for that worker is still
  to be picked up.
* `dispatched_served` — in every run whose steps all meet it, the services that have run are, whenever
  the host is quiescent, exactly the requests dispatched.
* `two_prints_one_served` — without the condition a request gets lost.
-/

namespace Expedition

open Function

namespace Posting

/-- The services that have been called, newest first. -/
def served (log : List Event) : List Service :=
  log.filterMap fun
    | .call _ svc _ => some svc
    | _ => none

/-- The service a worker's type variable stands for. -/
def names (k : Worker) (v : Word) : Option Service :=
  match k with
  | .send => sendService v
  | .recv => recvService v
  | .pow => some .read_pow

/-- The service a woken worker is about to call. -/
def awaiting (k : Worker) (v : Word) : WorkPc → Option Service
  | .switch => names k v
  | .size svc | .enter svc _ => some svc
  | _ => none

/-- The requests handed over to worker `k` that it has not served. -/
def pending (h : Host) (k : Worker) : List Service :=
  (if h.shared.flag (.work k) then (names k (h.shared.glob k.typeVar)).toList else []) ++
    (awaiting k (h.shared.glob k.typeVar) (h.work k)).toList

/-- A request for worker `k` is still to be picked up: its flag is set, or it is woken and has not
read its type variable. -/
def unclaimed (h : Host) (k : Worker) : Prop :=
  h.shared.flag (.work k) = true ∨ h.work k = .switch

/-- The condition on a step of the dispatcher: where it stores a type, no request of another type is
unclaimed; where it signals, the flag is clear. -/
def HandoverOk : PostAct → Posting → Prop
  | .host (.dispatch _), s =>
    match s.host.dispatch with
    | .storeType svc _ => unclaimed s.host svc.worker →
        s.host.shared.glob svc.worker.typeVar = svc.typeCode
    | .signal svc => s.host.shared.flag (.work svc.worker) = false
    | _ => True
  | _, _ => True

theorem names_typeCode (svc : Service) : names svc.worker svc.typeCode = some svc := by
  cases svc <;> rfl

/-- The argument variables do not name services. -/
theorem names_argVar (h : Shared) (svc : Service) (val : Word) (k : Worker) :
    names k (update h.glob (svc.argVar.getD .req_gain_ctrl) val k.typeVar) =
      names k (h.glob k.typeVar) := by
  cases k with
  | pow => rfl
  | _ => rw [update_of_ne (fun e => by cases Service.argVar_knows e)]

/-- The `switch` of a worker goes to the service its type variable stands for. -/
theorem awaiting_ofType (k : Worker) (v v' : Word) :
    awaiting k v' (WorkPc.ofType k v) = names k v := by
  cases k with
  | pow => rfl
  | send =>
    unfold WorkPc.ofType names
    simp only
    split
    · rename_i h; rw [h]; rfl
    · rename_i h; rw [h]; rfl
  | recv =>
    unfold WorkPc.ofType names
    simp only
    split
    · rename_i h; rw [h]; rfl
    · rename_i h; rw [h]; rfl
    · rename_i h; rw [h]; rfl

/-! ## Steps of the workers -/

theorem exec_served {P : Type} {t : Thread} {ans : Answer} {s s' : Shared} {i : Instr P} {p : P}
    (h : i.exec t ans s = some (s', p)) (hi : ∀ svc arg q, i ≠ .call svc arg q) :
    served s'.log = served s.log := by
  cases i with
  | signal_wait n =>
    obtain ⟨-, rfl, -⟩ := Instr.exec_signal_wait h
    rfl
  | lock m n =>
    obtain ⟨_, -, rfl, -⟩ := Instr.exec_lock h
    rfl
  | call svc arg n => exact absurd rfl (hi svc arg n)
  | ack_intr b n => cases b <;> (cases h; rfl)
  | _ => cases h <;> rfl

/-- Between its call and its next wake-up a worker has nothing to pick up. -/
theorem awaiting_next {k : Worker} {v : Word} {p q : WorkPc} (h : (p.code k).Next q)
    (hw : p ≠ .wait) (hp : awaiting k v p = none) (hsw : p ≠ .switch) : awaiting k v q = none := by
  cases WorkPc.goes h with
  | wake => exact absurd rfl hw
  | choose v => exact absurd rfl hsw
  | load => cases hp
  | _ => rfl

theorem code_ne_call {k : Worker} {p : WorkPc} (hp : ∀ svc arg, p ≠ .enter svc arg) (svc : Service)
    (arg : Word) (q : WorkPc) : p.code k ≠ .call svc arg q := by
  intro h
  cases p with
  | enter svc' arg' => exact hp svc' arg' rfl
  | rbWrite svc' reply j ws => cases ws <;> cases h
  | _ => cases h

/-- A worker's step turns what is pending for it into what is served, one for one. -/
theorem balance_work {h h' : Host} {k : Worker} {ans : Answer}
    (hs : h.step (.work k ans) = some h') (svc : Service) :
    (served h'.shared.log).count svc + (pending h' k).count svc =
      (served h.shared.log).count svc + (pending h k).count svc := by
  simp only [Host.step, Option.map_eq_some_iff] at hs
  obtain ⟨⟨s, q⟩, he, rfl⟩ := hs
  have hglob := (WorkPc.exec_frame he).1
  unfold pending
  simp only [hglob, update_self]
  cases hp : h.work k with
  | wait =>
    rw [hp] at he
    obtain ⟨hf, rfl, rfl⟩ := Instr.exec_signal_wait he
    simp [hf, awaiting]
  | switch =>
    rw [hp] at he
    cases he
    rw [awaiting_ofType]
    rfl
  | size svc' =>
    rw [hp] at he
    cases he
    rfl
  | enter svc' arg =>
    rw [hp] at he
    cases he
    have hbody : awaiting k (h.shared.glob k.typeVar) (WorkPc.body svc' arg) = none := by
      unfold WorkPc.body
      split
      · rfl
      · rfl
      · split <;> rfl
      · rfl
    rw [hbody]
    simp only [served, List.filterMap_cons, awaiting, Option.toList_none, Option.toList_some,
      List.append_nil, List.count_append, List.count_cons, List.count_nil]
    omega
  | _ =>
    have hserved := exec_served he (code_ne_call (by rw [hp]; simp))
    have hflag := WorkPc.exec_own_flag he (by rw [hp]; simp)
    have hq := awaiting_next (v := h.shared.glob k.typeVar) (Instr.exec_next he) (by rw [hp]; simp)
      (by rw [hp]; rfl) (by rw [hp]; simp)
    rw [hserved, hflag, hq]
    rfl

/-- What is pending for another worker is left alone. -/
theorem pending_work_ne {h h' : Host} {k k' : Worker} {ans : Answer}
    (hs : h.step (.work k ans) = some h') (hk : k' ≠ k) : pending h' k' = pending h k' := by
  simp only [Host.step, Option.map_eq_some_iff] at hs
  obtain ⟨⟨s, q⟩, he, rfl⟩ := hs
  have hflag := Instr.exec_flag (.work k') he (by simpa using hk) (WorkPc.code_ne_signal _ _)
  unfold pending
  simp only [(WorkPc.exec_frame he).1, hflag, update_of_ne hk]

/-- A worker serves its own services only. -/
theorem served_work_ne {h h' : Host} {k : Worker} {ans : Answer} (hpl : h.Placed)
    (hs : h.step (.work k ans) = some h') {svc : Service} (hk : svc.worker ≠ k) :
    (served h'.shared.log).count svc = (served h.shared.log).count svc := by
  simp only [Host.step, Option.map_eq_some_iff] at hs
  obtain ⟨⟨s, q⟩, he, rfl⟩ := hs
  by_cases hcall : ∃ svc' arg, h.work k = .enter svc' arg
  · obtain ⟨svc', arg, hp⟩ := hcall
    have hown := (hpl k).own svc' (by rw [hp]; rfl)
    rw [hp] at he
    cases he
    have hne : svc' ≠ svc := by
      rintro rfl
      exact hk hown
    simp [served, hne]
  · rw [show served s.log = _ from exec_served he (code_ne_call fun svc' arg hp => hcall ⟨svc', arg, hp⟩)]

/-! ## Steps of the dispatcher -/

/-- Every request dispatched is served or pending, once. -/
def Balanced (s : Posting) : Prop :=
  ∀ svc, s.dispatched.count svc =
    (served s.host.shared.log).count svc + (pending s.host svc.worker).count svc

/-- The dispatcher has stored the type of the service it is about to signal. -/
def Announced (s : Posting) : Prop :=
  ∀ svc, (∃ v, s.host.dispatch = .storeArg svc v) ∨ s.host.dispatch = .signal svc →
    names svc.worker (s.host.shared.glob svc.worker.typeVar) = some svc

/-- A step of the dispatcher that neither stores a type nor signals leaves what is pending. -/
theorem pending_dispatch {h : Host} {ans : Answer} {sh : Shared} {p : DispatchPc}
    (he : h.dispatch.code.exec .dispatch ans h.shared = some (sh, p))
    (htype : ∀ svc v, h.dispatch ≠ .storeType svc v) (hsig : ∀ svc, h.dispatch ≠ .signal svc)
    (k : Worker) :
    pending { h with shared := sh, dispatch := p } k = pending h k := by
  have hflag : sh.flag (.work k) = h.shared.flag (.work k) := by
    refine Instr.exec_flag (.work k) he (by simp) fun q hq => ?_
    cases hd : h.dispatch with
    | signal svc => exact hsig svc hd
    | _ => rw [hd] at hq; cases hq
  have hnames : names k (sh.glob k.typeVar) = names k (h.shared.glob k.typeVar) := by
    cases hd : h.dispatch with
    | storeType svc v => exact absurd hd (htype svc v)
    | storeArg svc v =>
      rw [hd] at he
      cases he
      exact names_argVar h.shared svc v k
    | wait =>
      rw [hd] at he
      obtain ⟨-, rfl, -⟩ := Instr.exec_signal_wait he
      rfl
    | lock =>
      rw [hd] at he
      obtain ⟨_, -, rfl, -⟩ := Instr.exec_lock he
      rfl
    | printLock =>
      rw [hd] at he
      obtain ⟨_, -, rfl, -⟩ := Instr.exec_lock he
      rfl
    | _ => rw [hd] at he; cases he; rfl
  have hawait : awaiting k (sh.glob k.typeVar) (h.work k) =
      awaiting k (h.shared.glob k.typeVar) (h.work k) := by
    cases hw : h.work k with
    | switch => exact hnames
    | _ => rfl
  unfold pending
  simp only [hflag, hnames, hawait]

theorem served_dispatch {h : Host} {ans : Answer} {sh : Shared} {p : DispatchPc}
    (he : h.dispatch.code.exec .dispatch ans h.shared = some (sh, p)) :
    served sh.log = served h.shared.log := by
  refine exec_served he fun svc arg q hq => ?_
  generalize h.dispatch = d at hq
  cases d <;> cases hq

/-- Storing a type changes nothing that is pending, because nothing of another type is. -/
theorem pending_storeType {h : Host} {svc : Service}
    (hok : unclaimed h svc.worker → h.shared.glob svc.worker.typeVar = svc.typeCode) (k : Worker)
    (p : DispatchPc) :
    pending { h with shared := { h.shared with
        glob := update h.shared.glob svc.worker.typeVar svc.typeCode }, dispatch := p } k =
      pending h k := by
  by_cases hk : k = svc.worker
  · subst hk
    by_cases hun : unclaimed h svc.worker
    · rw [← hok hun, update_eq_self]
      rfl
    · have hflag : h.shared.flag (.work svc.worker) = false := by
        simpa using fun hf => hun (.inl hf)
      have hsw : h.work svc.worker ≠ .switch := fun hw => hun (.inr hw)
      unfold pending
      simp only [hflag, Bool.false_eq_true, if_false, List.nil_append]
      cases hw : h.work svc.worker with
      | switch => exact absurd hw hsw
      | _ => rfl
  · have hvar : k.typeVar ≠ svc.worker.typeVar := fun e => hk (Worker.typeVar_inj e)
    unfold pending
    simp only [update_of_ne hvar]

/-- A signal hands one request over. -/
theorem pending_signal {h : Host} {svc : Service} (hflag : h.shared.flag (.work svc.worker) = false)
    (hnames : names svc.worker (h.shared.glob svc.worker.typeVar) = some svc) (svc' : Service)
    (l : List Event) :
    (pending { h with shared := { h.shared with
        flag := update h.shared.flag (.work svc.worker) true, log := l }, dispatch := .wait }
      svc'.worker).count svc' = (pending h svc'.worker).count svc' + [svc].count svc' := by
  by_cases hk : svc'.worker = svc.worker
  · unfold pending
    simp only [hk, update_self, hflag, hnames, if_true, Bool.false_eq_true, if_false,
      Option.toList_some, List.count_append, List.count_nil]
    omega
  · have hne : svc ≠ svc' := fun e => hk (by rw [e])
    unfold pending
    have hthread : Thread.work svc'.worker ≠ .work svc.worker := by simpa using hk
    simp only [update_of_ne hthread, List.count_singleton, beq_iff_eq, hne, if_false, Nat.add_zero]

theorem Balanced.dispatch {s : Posting} {ans : Answer} {h : Host} (hb : Balanced s)
    (ha : Announced s) (hok : HandoverOk (.host (.dispatch ans)) s)
    (he : s.host.step (.dispatch ans) = some h) :
    Balanced { s with host := h, clean := s.clean && !HostAct.soils s.host (.dispatch ans),
                      argReads := s.noteArg (.dispatch ans),
                      dispatched := s.noteSignal (.dispatch ans) } := by
  simp only [Host.step, Option.map_eq_some_iff] at he
  obtain ⟨⟨sh, p⟩, he, rfl⟩ := he
  have hserved := served_dispatch he
  intro svc'
  show (s.noteSignal (.dispatch ans)).count svc' = (served sh.log).count svc' + _
  rw [hserved]
  have hbal := hb svc'
  cases hd : s.host.dispatch with
  | storeType svc v =>
    have hok' : unclaimed s.host svc.worker →
        s.host.shared.glob svc.worker.typeVar = svc.typeCode := by
      simpa only [HandoverOk, hd] using hok
    rw [hd] at he
    cases he
    have hpend := pending_storeType hok' svc'.worker
      (if svc.argVar.isSome then .storeArg svc v else .signal svc)
    simp only [noteSignal, hd]
    rw [hpend]
    exact hbal
  | signal svc =>
    have hflag : s.host.shared.flag (.work svc.worker) = false := by
      simpa only [HandoverOk, hd] using hok
    have hpend := pending_signal hflag (ha svc (.inr hd)) svc'
      (.signal .dispatch (.work svc.worker) :: s.host.shared.log)
    rw [hd] at he
    cases he
    simp only [noteSignal, hd]
    rw [hpend, ← List.singleton_append (x := svc), List.count_append, hbal]
    omega
  | _ =>
    have hpend := pending_dispatch he (by rw [hd]; simp) (by rw [hd]; simp) svc'.worker
    simp only [noteSignal, hd]
    rw [hpend]
    exact hbal

theorem Announced.dispatch {s : Posting} {ans : Answer} {h : Host} (ha : Announced s)
    (he : s.host.step (.dispatch ans) = some h) :
    Announced { s with host := h, clean := s.clean && !HostAct.soils s.host (.dispatch ans),
                       argReads := s.noteArg (.dispatch ans),
                       dispatched := s.noteSignal (.dispatch ans) } := by
  simp only [Host.step, Option.map_eq_some_iff] at he
  obtain ⟨⟨sh, p⟩, he, rfl⟩ := he
  intro svc hp
  have hp' : (∃ v, p = .storeArg svc v) ∨ p = .signal svc := hp
  show names svc.worker (sh.glob svc.worker.typeVar) = some svc
  cases hd : s.host.dispatch with
  | unlock type val =>
    -- straight from the `switch` only a power request goes on to its argument
    rw [hd] at he
    cases he
    have hpow : svc = .read_pow := by
      unfold DispatchPc.switch at hp'
      split at hp'
      · rcases hp' with ⟨v, h⟩ | h <;> cases h
        rfl
      · rcases hp' with ⟨v, h⟩ | h <;> cases h
      · rcases hp' with ⟨v, h⟩ | h <;> cases h
    rw [hpow]
    rfl
  | storeType svc' val =>
    rw [hd] at he
    cases he
    have hsvc : svc = svc' := by
      split at hp' <;> rcases hp' with ⟨v, h⟩ | h <;> cases h <;> rfl
    subst hsvc
    simp only [update_self]
    exact names_typeCode svc
  | storeArg svc' val =>
    rw [hd] at he
    cases he
    have hsvc : svc = svc' := by
      rcases hp' with ⟨v, h⟩ | h <;> cases h
      rfl
    subst hsvc
    have hold := ha svc (.inl ⟨val, hd⟩)
    rw [← hold]
    exact names_argVar s.host.shared svc val svc.worker
  | wait =>
    rw [hd] at he
    obtain ⟨-, -, rfl⟩ := Instr.exec_signal_wait he
    rcases hp' with ⟨v, h⟩ | h <;> cases h
  | lock =>
    rw [hd] at he
    obtain ⟨_, -, -, rfl⟩ := Instr.exec_lock he
    rcases hp' with ⟨v, h⟩ | h <;> cases h
  | printLock type =>
    rw [hd] at he
    obtain ⟨_, -, -, rfl⟩ := Instr.exec_lock he
    rcases hp' with ⟨v, h⟩ | h <;> cases h
  | _ =>
    rw [hd] at he
    cases he
    rcases hp' with ⟨v, h⟩ | h <;> cases h

theorem announced {ok : PostAct → Posting → Prop} {s : Posting} (h : machine.ReachIf ok s) :
    Announced s := by
  refine h.invariant (I := Announced) (fun s (hf : s.Fresh) svc hd => ?_) ?_
  · rw [hf.host.dispatch] at hd
    rcases hd with ⟨v, hd⟩ | hd <;> cases hd
  · intro a s s' hs _ hstep
    rcases step_cases hstep with ⟨b, h', rfl, hh, rfl⟩ | ha
    · cases b with
      | handler =>
        simp only [Host.step] at hh
        split at hh
        · cases hh; exact hs
        · cases hh
      | dispatch ans => exact hs.dispatch hh
      | work k ans =>
        simp only [Host.step, Option.map_eq_some_iff] at hh
        obtain ⟨⟨sh, p⟩, he, rfl⟩ := hh
        intro svc hd
        show names svc.worker (sh.glob svc.worker.typeVar) = some svc
        rw [(WorkPc.exec_frame he).1]
        exact hs svc hd
    · unfold Announced
      obtain ⟨hsame | ⟨c, hc⟩, -⟩ := step_chip ha hstep
      · rw [hsame]; exact hs
      · rw [hc]; cases c <;> exact hs

theorem balanced {s : Posting} (h : machine.ReachIf HandoverOk s) : Balanced s := by
  refine h.invariant_of (J := fun s => s.host.Placed ∧ Announced s) (I := Balanced)
    (fun s hr => ⟨workers_placed (reach_host hr), announced hr⟩) (fun s (hf : s.Fresh) svc => ?_) ?_
  · unfold pending
    rw [hf.dispatched, hf.host.log, hf.host.flag, hf.host.work]
    rfl
  · rintro a s s' ⟨hpl, ha⟩ hs hok hstep
    rcases step_cases hstep with ⟨b, h', rfl, hh, rfl⟩ | hchip
    · cases b with
      | handler =>
        simp only [Host.step] at hh
        split at hh
        · cases hh
          intro svc
          have hflag : update s.host.shared.flag .dispatch true (.work svc.worker) =
              s.host.shared.flag (.work svc.worker) := update_of_ne (by simp) _ _
          have hbal := hs svc
          unfold pending at *
          simp only [hflag]
          exact hbal
        · cases hh
      | dispatch ans => exact hs.dispatch ha hok hh
      | work k ans =>
        intro svc
        have hbal := hs svc
        by_cases hk : svc.worker = k
        · subst hk
          have hwork := balance_work hh svc
          exact hbal.trans hwork.symm
        · show s.dispatched.count svc = (served h'.shared.log).count svc + (pending h' svc.worker).count svc
          rw [served_work_ne hpl hh hk, pending_work_ne hh hk]
          exact hbal
    · intro svc
      have hbal := hs svc
      obtain ⟨hsame | ⟨c, hc⟩, hd⟩ := step_chip hchip hstep
      · rw [hsame, hd]; exact hbal
      · rw [hc, hd]; cases c <;> exact hbal

/-- The host has nothing left to do: every signal flag is clear and every worker waits. -/
structure Quiescent (h : Host) : Prop where
  dispatch : h.shared.flag .dispatch = false
  flag : ∀ k, h.shared.flag (.work k) = false
  work : ∀ k, h.work k = .wait

instance (h : Host) : Decidable (Quiescent h) :=
  decidable_of_iff (h.shared.flag .dispatch = false ∧ (∀ k, h.shared.flag (.work k) = false) ∧
    ∀ k, h.work k = .wait) ⟨fun h => ⟨h.1, h.2.1, h.2.2⟩, fun h => ⟨h.1, h.2, h.3⟩⟩

/-- **Every request dispatched is served exactly once, by its own service**, in every run in which no
signal finds the worker's flag set and no type variable is changed under an unclaimed request. -/
theorem dispatched_served {s : Posting} (hr : machine.ReachIf HandoverOk s) (hq : Quiescent s.host) :
    s.dispatched.Perm (served s.host.shared.log) := by
  rw [List.perm_iff_count]
  intro svc
  have hbal := balanced hr svc
  unfold pending at hbal
  rw [hq.flag, hq.work] at hbal
  simpa [awaiting] using hbal

instance (h : Host) (k : Worker) : Decidable (unclaimed h k) :=
  inferInstanceAs (Decidable (_ ∨ _))

instance (a : PostAct) (s : Posting) : Decidable (HandoverOk a s) :=
  match a with
  | .host (.dispatch _) =>
    match h : s.host.dispatch with
    | .storeType svc _ =>
      decidable_of_iff (unclaimed s.host svc.worker →
        s.host.shared.glob svc.worker.typeVar = svc.typeCode) (by simp only [HandoverOk, h])
    | .signal svc =>
      decidable_of_iff (s.host.shared.flag (.work svc.worker) = false) (by simp only [HandoverOk, h])
    | .wait | .lock | .readType | .readVal _ | .clear _ _ | .unlock _ _ | .storeArg _ _
    | .printLock _ | .print _ | .printUnlock => isTrue (by simp only [HandoverOk, h])
  | .host .handler | .host (.work _ _) | .look | .argue _ | .type | .edge | .scribble _ _
  | .takeAck => isTrue trivial

/-- A print request with an empty message is dispatched and served. -/
theorem dispatched_served_print :
    ∃ s, machine.ReachIf HandoverOk s ∧ Quiescent s.host ∧ s.dispatched = [.term_printf] ∧
      s.dispatched.Perm (served s.host.shared.log) := by
  obtain ⟨s, hr, hs⟩ := Machine.exists_reach_of_run (M := machine.restrict HandoverOk)
    (p := fun s => decide (Quiescent s.host ∧ s.dispatched = [.term_printf]))
    (fresh_fresh fun _ => 0)
    (post ⟨TERM_PRINT_REQ, 5⟩ ++ dispatchRound ++ List.replicate 16 (.host (.work .send .empty)))
    (by decide)
  obtain ⟨hq, hd⟩ := of_decide_eq_true hs
  exact ⟨s, .of_restrict hr, hq, hd, dispatched_served (.of_restrict hr) hq⟩

/-- Two requests for one worker before it runs: the second overwrites the type of the first and its
signal finds the flag set, so one service runs for two requests. -/
theorem two_prints_one_served :
    ∃ s, machine.Reach s ∧ Quiescent s.host ∧ ¬ s.dispatched.Perm (served s.host.shared.log) := by
  obtain ⟨s, hr, hs⟩ := Machine.exists_reach_of_run (M := machine)
    (p := fun s => decide (Quiescent s.host ∧ s.dispatched = [.enet_send, .term_printf] ∧
      served s.host.shared.log = [.enet_send]))
    (fresh_fresh fun _ => 0)
    (post ⟨TERM_PRINT_REQ, 5⟩ ++ dispatchRound ++ post ⟨ENET_SEND_REQ, 7⟩ ++ dispatchRound ++
      List.replicate 11 (.host (.work .send .empty)))
    (by decide)
  obtain ⟨hq, hd, hsv⟩ := of_decide_eq_true hs
  refine ⟨s, hr, hq, fun hperm => ?_⟩
  rw [hd, hsv] at hperm
  have hlen := hperm.length_eq
  cases hlen

end Posting

end Expedition
