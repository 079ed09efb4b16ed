import Expedition.Lib.Machine
import Expedition.Rtx.Calls
import Expedition.Rtx.Delays

/-!
# The kernel at work

The kernel from reset on, with its service calls, its tick and its interrupts in any order.  An
interrupt may ask for something at any time, between two requests that `rt_pop_req` serves as well.

* `rtx` — the kernel as a machine, on the pointers or on the lists.
* `Act.Fit` — what the threads and the interrupts see to.
* `InOrder` — the invariant: a task runs, and none that is ready is above it.
* `Act.prog_run` — **an action that can happen does not fault, and keeps the invariant.**
-/

namespace Expedition.Rtx

open Queues

variable {M S T K : Type}

/-- The kernel, and the index at which `rt_pop_req` is while it serves requests. -/
structure Core (K : Type) where
  kernel : K
  popping : Option Nat

/-- What can happen next. -/
inductive Act (M S T : Type) where
  | service (c : Service M S T)
  | tick
  /-- An interrupt calls `isrSignalSet`. -/
  | raise (thread_id : T) (signals : BitVec 16)
  /-- An interrupt calls `isrSemaphoreRelease`. -/
  | post (s : S)
  /-- `PendSV_Handler` is entered. -/
  | pendSV
  /-- `rt_pop_req` looks at the count again, and serves one request or comes to its end. -/
  | pop

/-- Threads call while they run, the idle demon does not, and the queue of requests never overflows. -/
def Act.Fit (idle : T) (v : Vars M S T) : Act M S T → Prop
  | .service c => v.run ≠ some idle ∧ ∀ x, v.run = some x → c.Fit idle v x
  | .raise t _ => t ≠ idle ∧ v.psq_count < os_fifo_size
  | .post _ => v.psq_count < os_fifo_size
  | _ => True

/-- The invariant of the kernel between two actions. -/
def InOrder (idle : T) (q : Queues M S T) : Option Nat → Prop
  | none => (∃ x, Chosen idle (q.vars.desk.Pending q.vars.psq_last) q x [] ∧ q.vars.run = some x) ∧
    q.vars.desk.Ring q.vars.psq_last
  | some idx => Sound idle (q.vars.desk.Pending idx) q [] ∧ q.vars.desk.Ring idx

variable [DecidableEq M] [DecidableEq S] [DecidableEq T]

/-- The handler that runs, and whether `rt_pop_req` is at work afterwards. -/
def Act.prog : Act M S T → Option Nat → Option (Rtk M S T (Option Nat))
  | .service c, none => some do
    svc c.prog
    return none
  | .tick, none => some do
    rt_systick
    Sys_Switch
    return none
  | .raise t f, popping => some do
    isrSignalSet t f
    return popping
  | .post s, popping => some do
    isrSemaphoreRelease s
    return popping
  | .pendSV, none => some do
    let idx ← rt_pop_req.enter
    return some idx
  | .pop, some idx => some do
    let v ← Call.get
    if v.psq_count = 0 then
      rt_pop_req.leave idx
      Sys_Switch
      return none
    else
      rt_pop_req.serve idx
      return some (psq_next idx)
  | _, _ => none

/-- The kernel as a machine. -/
def rtx (start : K → Prop) (handle : (o : Op M S T) → Exec K Fault o.Res) :
    Machine (Core K) (Act M S T) where
  start s := start s.kernel ∧ s.popping = none
  step a s := match a.prog s.popping with
    | none => none
    | some p => match p.run handle s.kernel with
      | (.ok popping, k) => some ⟨k, popping⟩
      | (.error _, _) => none

variable {idle : T} {q : Queues M S T} {x : T} {P : T → Prop} {idx : Nat}

/-! ## The handlers on the lists -/

/-- The end of a handler. -/
def Queues.switched (q : Queues M S T) : Queues M S T := q.edit fun v => { v with run := v.new_tsk }

theorem run_Sys_Switch : (Sys_Switch : Rtk M S T Unit).run Op.high q = (.ok (), q.switched) := run_modify _

/-- The lists after a service call. -/
def Service.after (q : Queues M S T) (x : T) (c : Service M S T) : Queues M S T :=
  ((c.effect q x).2.edit fun v => v.setRet x (c.effect q x).1).switched

theorem svc_run {c : Service M S T} (hq : Chosen idle P q x []) (hr : q.vars.run = some x)
    (hx : x ≠ idle) (hc : c.Fit idle q.vars x) :
    (svc c.prog : Rtk M S T Unit).run Op.high q = (.ok (), c.after q x) := by
  rw [svc, run_then (run_running hr), run_then (c.prog_run hq hr hx hc), run_then (run_modify _)]
  exact run_Sys_Switch

theorem rt_systick_run (hq : Chosen idle P q x []) (hr : q.vars.run = some x) :
    (rt_systick : Rtk M S T Unit).run Op.high q = (.ok (), q.systick x) := by
  have hfront : (q.toFront x).queue .rdy ≠ [] := by
    rw [toFront_queue]
    exact List.cons_ne_nil _ _
  have hrobin := hq.suspend.robin.edit (f := fun v => { v with os_time := u32 (v.os_time + 1) })
    ⟨rfl, rfl, rfl, rfl, rfl, rfl, rfl, rfl⟩
  rw [rt_systick, run_then (run_running hr), run_then (run_modify _)]
  rw [run_then (run_put_rdy_first (q := q.edit fun v => v.setState x .READY) hq.out)]
  show (rt_chk_robin >>= _ : Rtk M S T Unit).run Op.high (q.toFront x) = _
  rw [run_then (rt_chk_robin_run hfront), run_then (run_modify _)]
  rw [run_then (run_dec_dly fun p hp _ => ?_)]
  · obtain ⟨y, hy⟩ := hrobin.tick.next
    refine run_next fun hnil => ?_
    have hidle := (hrobin.tick.wf.place .rdy idle).mpr (hrobin.tick.demon.resolve_left List.not_mem_nil)
    rw [hnil] at hidle
    cases hidle
  · have hlive := hrobin.dated p.1 (List.mem_map_of_mem hp)
    exact ⟨hrobin.kept p.1 hlive, fun hrdy => hrobin.awake p.1 hrdy (List.mem_map_of_mem hp)⟩

theorem rt_pop_req_enter_run (hq : Chosen idle P q x []) (hr : q.vars.run = some x) :
    (rt_pop_req.enter : Rtk M S T Nat).run Op.high q = (.ok q.vars.psq_last, q.toFront x) := by
  rw [rt_pop_req.enter, run_then (run_running hr), run_then (run_modify _)]
  rw [run_then (run_put_rdy_first (q := q.edit fun v => v.setState x .READY) hq.out)]
  show (Call.get >>= _ : Rtk M S T Nat).run Op.high (q.toFront x) = _
  rw [run_then run_get]
  rfl

/-- The request `e` with the argument `f` is served. -/
def Queues.serve (q : Queues M S T) (e : T ⊕ S) (f : BitVec 16) : Queues M S T :=
  (match e with
  | .inl t => q.evtPsh t f
  | .inr s => q.semPsh s).edit fun v => { v with psq_count := v.psq_count - 1 }

theorem serve_desk (q : Queues M S T) (e : T ⊕ S) (f : BitVec 16) :
    (q.serve e f).vars.desk = q.vars.desk.pop := by
  cases e with
  | inl t => exact congrArg Desk.pop (congrArg Words.desk (evtPsh_words q t f))
  | inr r =>
    refine congrArg Desk.pop ((congrArg Words.desk (semPsh_words q r)).trans ?_)
    cases q.queue (.scb r) <;> rfl

theorem rt_pop_req_serve_run {e : T ⊕ S} (hq : Sound idle P q []) (he : q.vars.psq_id idx = some e)
    (ht : ∀ t, e = .inl t → Live idle q.vars t ∨ q.vars.state t = .INACTIVE) :
    (rt_pop_req.serve idx : Rtk M S T Unit).run Op.high q =
      (.ok (), q.serve e (q.vars.psq_arg idx)) := by
  rw [rt_pop_req.serve, run_then run_get, he]
  cases e with
  | inl t =>
    have hout : (q.edit fun v => v.setEvents t (v.events t ||| q.vars.psq_arg idx)).vars.satisfied t = true →
        q.place t = none := by
      intro hsat
      have hstate := Vars.state_of_satisfied hsat
      have hlive := (ht t rfl).resolve_right fun hs => by
        rcases hstate with h | h <;> rw [show q.vars.state t = _ from h] at hs <;> cases hs
      exact hq.place_of_waiting hlive List.not_mem_nil hstate
    show (rt_evt_psh t _ >>= _ : Rtk M S T Unit).run Op.high q = _
    rw [run_then (rt_evt_psh_run hout)]
    exact run_modify _
  | inr s =>
    show (rt_sem_psh s >>= _ : Rtk M S T Unit).run Op.high q = _
    rw [run_then rt_sem_psh_run]
    exact run_modify _

/-- `rt_pop_req` comes to its end. -/
def Queues.resume (q : Queues M S T) (idx : Nat) : Queues M S T :=
  (q.edit fun v => { v with psq_last := idx }).next

theorem rt_pop_req_leave_run (hq : Sound idle P q []) :
    (rt_pop_req.leave idx : Rtk M S T Unit).run Op.high q = (.ok (), q.resume idx) := by
  rw [rt_pop_req.leave, run_then (run_modify _)]
  refine run_next fun hnil => ?_
  have hidle := (hq.wf.place .rdy idle).mpr (hq.demon.resolve_left List.not_mem_nil)
  rw [show q.queue .rdy = [] from hnil] at hidle
  cases hidle

/-- A request goes to the end of the queue. -/
def Queues.request (q : Queues M S T) (e : T ⊕ S) (arg : BitVec 16) : Queues M S T :=
  q.edit fun v =>
    { v with
      psq_count := v.psq_count + 1
      psq_first := psq_next v.psq_first
      psq_id := Function.update v.psq_id v.psq_first (some e)
      psq_arg := Function.update v.psq_arg v.psq_first arg }

theorem rt_psq_enq_run {e : T ⊕ S} {arg : BitVec 16} (hc : q.vars.psq_count ≠ os_fifo_size) :
    (rt_psq_enq e arg : Rtk M S T Unit).run Op.high q = (.ok (), q.request e arg) := by
  rw [rt_psq_enq, run_then run_get, if_neg hc]
  exact run_modify _

/-- What `isrSignalSet` does. -/
def Queues.raise (q : Queues M S T) (t : T) (f : BitVec 16) : Queues M S T :=
  if q.vars.is_tcb t then
    match q.vars.os_active_TCB (q.vars.task_id t - 1) with
    | none => q
    | some u => q.request (.inl u) f
  else q

theorem isrSignalSet_run {t : T} {f : BitVec 16} (hc : q.vars.psq_count ≠ os_fifo_size) :
    (isrSignalSet t f : Rtk M S T Unit).run Op.high q = (.ok (), q.raise t f) := by
  rw [isrSignalSet, run_then run_get]
  unfold Queues.raise
  by_cases ht : q.vars.is_tcb t = true
  · rw [if_pos ht, if_pos ht]
    rw [isr_evt_set, run_then run_get]
    cases q.vars.os_active_TCB (q.vars.task_id t - 1) with
    | none => rfl
    | some u => exact rt_psq_enq_run hc
  · rw [if_neg ht, if_neg ht]
    rfl

/-- What `isrSemaphoreRelease` does. -/
def Queues.postSem (q : Queues M S T) (s : S) : Queues M S T :=
  if q.vars.tokens s ≠ 0xFFFF then q.request (.inr s) 0 else q

theorem isrSemaphoreRelease_run {s : S} (hc : q.vars.psq_count ≠ os_fifo_size) :
    (isrSemaphoreRelease s : Rtk M S T Unit).run Op.high q = (.ok (), q.postSem s) := by
  rw [isrSemaphoreRelease, run_then run_get]
  unfold Queues.postSem
  by_cases ht : q.vars.tokens s ≠ 0xFFFF
  · rw [if_pos ht, if_pos ht]
    exact rt_psq_enq_run hc
  · rw [if_neg ht, if_neg ht]
    rfl

/-! ## The invariant -/

omit [DecidableEq M] [DecidableEq S] [DecidableEq T] in
theorem Sound.renamed {P' : T → Prop} {hand : List T} (hq : Sound idle P q hand)
    (h : ∀ t, P' t → Live idle q.vars t ∨ q.vars.state t = .INACTIVE) : Sound idle P' q hand :=
  { hq with named := h }

omit [DecidableEq M] [DecidableEq S] [DecidableEq T] in
theorem Chosen.renamed {P' : T → Prop} {l : List T} (hq : Chosen idle P q x l)
    (h : ∀ t, P' t → Live idle q.vars t ∨ q.vars.state t = .INACTIVE) : Chosen idle P' q x l :=
  ⟨⟨hq.sound.renamed h, hq.out, hq.awake, hq.running, hq.new_tsk⟩, hq.top⟩

omit [DecidableEq M] [DecidableEq S] [DecidableEq T] in
/-- After a handler that has chosen a task, that task runs. -/
theorem Chosen.inOrder (hq : Chosen idle (q.vars.desk.Pending q.vars.psq_last) q x [])
    (hd : q.vars.desk.Ring q.vars.psq_last) : InOrder idle q.switched none :=
  ⟨⟨x, hq.edit (f := fun v => { v with run := v.new_tsk }) ⟨rfl, rfl, rfl, rfl, rfl, rfl, rfl, rfl⟩ rfl,
    hq.new_tsk⟩, hd⟩

theorem Service.after_inOrder {c : Service M S T} (hq : InOrder idle q none) (hr : q.vars.run = some x)
    (hx : x ≠ idle) (hc : c.Fit idle q.vars x) : InOrder idle (c.after q x) none := by
  obtain ⟨⟨x', hchosen, hr'⟩, hring⟩ := hq
  obtain rfl := Option.some.inj (hr'.symm.trans hr)
  obtain ⟨y, hy⟩ := c.chosen hchosen hx hc fun t h => h
  have hdesk := c.effect_desk q x'
  have hlast : (c.effect q x').2.vars.psq_last = q.vars.psq_last := congrArg Desk.last hdesk
  have hret := hy.edit (f := fun v => v.setRet x' (c.effect q x').1)
    ⟨rfl, rfl, rfl, rfl, rfl, rfl, rfl, rfl⟩ rfl
  refine Chosen.inOrder (x := y) ?_ ?_
  · show Chosen idle (Desk.Pending (c.effect q x').2.vars.desk (c.effect q x').2.vars.psq_last) _ y []
    rw [hdesk, hlast]
    exact hret
  · show (c.effect q x').2.vars.desk.Ring (c.effect q x').2.vars.psq_last
    rw [hdesk, hlast]
    exact hring

theorem systick_inOrder (hq : InOrder idle q none) (hr : q.vars.run = some x) :
    InOrder idle (q.systick x).switched none := by
  obtain ⟨⟨x', hchosen, hr'⟩, hring⟩ := hq
  obtain rfl := Option.some.inj (hr'.symm.trans hr)
  obtain ⟨y, hy⟩ := hchosen.systick
  have hdesk : (q.systick x').vars.desk = q.vars.desk := congrArg Words.desk (systick_words q x')
  have hlast : (q.systick x').vars.psq_last = q.vars.psq_last := congrArg Desk.last hdesk
  refine Chosen.inOrder (x := y) ?_ ?_
  · rw [hdesk, hlast]
    exact hy
  · rw [hdesk, hlast]
    exact hring

theorem suspend_inOrder (hq : InOrder idle q none) (hr : q.vars.run = some x) :
    InOrder idle (q.toFront x) (some q.vars.psq_last) := by
  obtain ⟨⟨x', hchosen, hr'⟩, hring⟩ := hq
  obtain rfl := Option.some.inj (hr'.symm.trans hr)
  exact ⟨hchosen.suspend, hring⟩

theorem serve_inOrder {e : T ⊕ S} (hq : InOrder idle q (some idx)) (hc : q.vars.psq_count ≠ 0)
    (he : q.vars.psq_id idx = some e) :
    InOrder idle (q.serve e (q.vars.psq_arg idx)) (some (psq_next idx)) := by
  obtain ⟨hsound, hring⟩ := hq
  have hdone : ∀ q' : Queues M S T, Sound idle (q.vars.desk.Pending idx) q' [] → q'.vars.desk = q.vars.desk →
      InOrder idle (q'.edit fun v => { v with psq_count := v.psq_count - 1 }) (some (psq_next idx)) := by
    intro q' hq' hdesk
    have hedit := hq'.edit (f := fun v => { v with psq_count := v.psq_count - 1 })
      ⟨rfl, rfl, rfl, rfl, rfl, rfl, rfl, rfl⟩
    have hc' : q'.vars.desk.count ≠ 0 := by rw [hdesk]; exact hc
    rw [← hdesk] at hring hedit
    exact ⟨hedit.renamed fun t ht => hedit.named t (Desk.pending_pop hring hc' ht),
      Desk.pop_ring hring hc'⟩
  cases e with
  | inl t =>
    have hnamed := hsound.named t (Desk.pending_head hring hc he)
    exact hdone _ (hsound.evtPsh hnamed _) (congrArg Words.desk (evtPsh_words q t _))
  | inr s =>
    refine hdone _ (hsound.semPsh s) ((congrArg Words.desk (semPsh_words q s)).trans ?_)
    cases q.queue (.scb s) <;> rfl

theorem resume_inOrder (hq : InOrder idle q (some idx)) (hc : q.vars.psq_count = 0) :
    InOrder idle (q.resume idx).switched none := by
  obtain ⟨hsound, hring⟩ := hq
  have hedit := hsound.edit (f := fun v => { v with psq_last := idx })
    ⟨rfl, rfl, rfl, rfl, rfl, rfl, rfl, rfl⟩
  obtain ⟨y, hy⟩ := hedit.next
  have hdesk : (q.resume idx).vars.desk = { q.vars.desk with last := idx } :=
    congrArg Words.desk (Moved.next (q.edit fun v => { v with psq_last := idx })).words
  have hlast : (q.resume idx).vars.psq_last = idx := congrArg Desk.last hdesk
  refine Chosen.inOrder (x := y) (hy.renamed fun t ht => ?_) ?_
  · rw [hdesk] at ht
    exact absurd ht (Desk.not_pending hc)
  · rw [hdesk, hlast]
    exact ⟨hring.lt, hring.count, hring.first, hring.full⟩

omit [DecidableEq M] [DecidableEq S] [DecidableEq T] in
/-- A request is taken down whatever the kernel is doing. -/
theorem request_inOrder {e : T ⊕ S} {arg : BitVec 16} {popping : Option Nat} (hq : InOrder idle q popping)
    (hc : q.vars.psq_count < os_fifo_size) (he : ∀ t, e = .inl t → Live idle q.vars t) :
    InOrder idle (q.request e arg) popping := by
  have hnamed : ∀ {idx t}, q.vars.desk.Ring idx → (∀ t, q.vars.desk.Pending idx t →
      Live idle q.vars t ∨ q.vars.state t = .INACTIVE) → (q.vars.desk.push e arg).Pending idx t →
      Live idle q.vars t ∨ q.vars.state t = .INACTIVE := by
    intro idx t hring hold ht
    rcases Desk.pending_push hring hc ht with h | h
    · exact hold t h
    · exact .inl (he t h)
  cases popping with
  | none =>
    obtain ⟨⟨x, hchosen, hr⟩, hring⟩ := hq
    have hedit : Chosen idle (q.vars.desk.Pending q.vars.psq_last) (q.request e arg) x [] :=
      hchosen.edit ⟨rfl, rfl, rfl, rfl, rfl, rfl, rfl, rfl⟩ rfl
    exact ⟨⟨x, hedit.renamed fun t ht => hnamed hring hchosen.sound.named ht, hr⟩, Desk.push_ring hring hc⟩
  | some idx =>
    obtain ⟨hsound, hring⟩ := hq
    have hedit : Sound idle (q.vars.desk.Pending idx) (q.request e arg) [] :=
      hsound.edit ⟨rfl, rfl, rfl, rfl, rfl, rfl, rfl, rfl⟩
    exact ⟨hedit.renamed fun t ht => hnamed hring hsound.named ht, Desk.push_ring hring hc⟩

omit [DecidableEq M] [DecidableEq S] [DecidableEq T] in
theorem raise_inOrder {t : T} {f : BitVec 16} {popping : Option Nat} (hq : InOrder idle q popping)
    (hc : q.vars.psq_count < os_fifo_size) : InOrder idle (q.raise t f) popping := by
  unfold Queues.raise
  split
  · cases hact : q.vars.os_active_TCB (q.vars.task_id t - 1) with
    | none => exact hq
    | some u =>
      refine request_inOrder hq hc fun v hv => ?_
      cases hv
      exact .inr ⟨_, hact⟩
  · exact hq

omit [DecidableEq M] [DecidableEq S] [DecidableEq T] in
theorem postSem_inOrder {s : S} {popping : Option Nat} (hq : InOrder idle q popping)
    (hc : q.vars.psq_count < os_fifo_size) : InOrder idle (q.postSem s) popping := by
  unfold Queues.postSem
  split
  · exact request_inOrder hq hc nofun
  · exact hq

/-- The lists after an action, and whether `rt_pop_req` is at work. -/
def Act.effect (q : Queues M S T) : Act M S T → Option Nat → Queues M S T × Option Nat
  | .service c, none => match q.vars.run with
    | some x => (c.after q x, none)
    | none => (q, none)
  | .tick, none => match q.vars.run with
    | some x => ((q.systick x).switched, none)
    | none => (q, none)
  | .raise t f, popping => (q.raise t f, popping)
  | .post s, popping => (q.postSem s, popping)
  | .pendSV, none => match q.vars.run with
    | some x => (q.toFront x, some q.vars.psq_last)
    | none => (q, none)
  | .pop, some idx =>
    if q.vars.psq_count = 0 then ((q.resume idx).switched, none)
    else match q.vars.psq_id idx with
      | some e => (q.serve e (q.vars.psq_arg idx), some (psq_next idx))
      | none => (q, some idx)
  | _, popping => (q, popping)

/-- **An action that can happen does not fault, and keeps the invariant.** -/
theorem Act.prog_run {a : Act M S T} {popping : Option Nat} {p : Rtk M S T (Option Nat)}
    (hq : InOrder idle q popping) (hf : a.Fit idle q.vars) (hp : a.prog popping = some p) :
    p.run Op.high q = (.ok (a.effect q popping).2, (a.effect q popping).1) ∧
      InOrder idle (a.effect q popping).1 (a.effect q popping).2 := by
  cases a with
  | service c =>
    cases popping with
    | some idx => cases hp
    | none =>
      cases hp
      obtain ⟨⟨x, hchosen, hr⟩, -⟩ := id hq
      have hx : x ≠ idle := fun he => hf.1 (he ▸ hr)
      simp only [Act.effect, hr]
      refine ⟨?_, Service.after_inOrder hq hr hx (hf.2 x hr)⟩
      rw [run_then (svc_run hchosen hr hx (hf.2 x hr))]
      rfl
  | tick =>
    cases popping with
    | some idx => cases hp
    | none =>
      cases hp
      obtain ⟨⟨x, hchosen, hr⟩, -⟩ := id hq
      simp only [Act.effect, hr]
      refine ⟨?_, systick_inOrder hq hr⟩
      rw [run_then (rt_systick_run hchosen hr), run_then run_Sys_Switch]
      rfl
  | raise t f =>
    cases hp
    refine ⟨?_, raise_inOrder hq hf.2⟩
    rw [run_then (isrSignalSet_run (Nat.ne_of_lt hf.2))]
    rfl
  | post s =>
    cases hp
    refine ⟨?_, postSem_inOrder hq hf⟩
    rw [run_then (isrSemaphoreRelease_run (Nat.ne_of_lt hf))]
    rfl
  | pendSV =>
    cases popping with
    | some idx => cases hp
    | none =>
      cases hp
      obtain ⟨⟨x, hchosen, hr⟩, -⟩ := id hq
      simp only [Act.effect, hr]
      refine ⟨?_, suspend_inOrder hq hr⟩
      rw [run_then (rt_pop_req_enter_run hchosen hr)]
      rfl
  | pop =>
    cases popping with
    | none => cases hp
    | some idx =>
      cases hp
      simp only [Act.effect]
      rw [run_then run_get]
      by_cases hc : q.vars.psq_count = 0
      · simp only [if_pos hc]
        refine ⟨?_, resume_inOrder hq hc⟩
        rw [run_then (rt_pop_req_leave_run hq.1), run_then run_Sys_Switch]
        rfl
      · obtain ⟨e, he⟩ := Desk.head hq.2 hc
        have he : q.vars.psq_id idx = some e := he
        simp only [if_neg hc, he]
        refine ⟨?_, serve_inOrder hq hc he⟩
        have hnamed : ∀ t, e = .inl t → Live idle q.vars t ∨ q.vars.state t = .INACTIVE := by
          rintro t rfl
          exact hq.1.named t (Desk.pending_head hq.2 hc he)
        rw [run_then (rt_pop_req_serve_run hq.1 he hnamed)]
        rfl

end Expedition.Rtx
