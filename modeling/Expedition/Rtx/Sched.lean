import Expedition.Rtx.Chains
import Expedition.Rtx.Kernel

/-!
# What the kernel functions do to the lists

A kernel function run on the lists comes down to a few moves of tasks: back into the ready list, to its
front, out of it into the processor, into a waiting list.  Here each function is computed as such
moves, wherever it does not fault.

* `Queues.toReady`, `toFront`, `next`, `dispatch`, `block` — the moves;
* `rt_dispatch_run`, `rt_block_run`, … — the functions.
-/

namespace Expedition.Rtx

open Queues

variable {M S T : Type} [DecidableEq M] [DecidableEq S] [DecidableEq T]

namespace Queues

/-- Change the variables. -/
def edit (q : Queues M S T) (f : Vars M S T → Vars M S T) : Queues M S T := { q with vars := f q.vars }

/-- `rt_put_prio (&os_rdy, x)` and `x->state = READY`. -/
def toReady (q : Queues M S T) (x : T) : Queues M S T := (q.put .rdy x).ready x

/-- `rt_put_rdy_first (x)` and `x->state = READY`. -/
def toFront (q : Queues M S T) (x : T) : Queues M S T :=
  (q.enlist .rdy x (x :: q.queue .rdy)).ready x

/-- `rt_switch_req (x)`. -/
def switch (q : Queues M S T) (x : T) : Queues M S T :=
  q.edit fun v => { v.setState x .RUNNING with new_tsk := some x }

/-- The first ready task is chosen. -/
def next (q : Queues M S T) : Queues M S T :=
  match q.queue .rdy with
  | [] => q
  | x :: _ => (q.take x).switch x

/-- `rt_dispatch (n)` while `run` is running. -/
def dispatch (q : Queues M S T) (run n : T) : Queues M S T :=
  if q.vars.prio n > q.vars.prio run then (q.toFront run).switch n else q.toReady n

/-- The task leaves the delay list. -/
def undelay (q : Queues M S T) (t : T) : Queues M S T :=
  { q with delay := q.delay.filter fun p => p.1 ≠ t }

/-- The task is delayed for `timeout` ticks, or not at all where that is for ever. -/
def delayFor (q : Queues M S T) (t : T) (timeout : Nat) : Queues M S T :=
  if timeout < 0xffff then { q with delay := putDate t (q.now + timeout) q.delay } else q

/-- `rt_block (timeout, s)` of the task `run`. -/
def block (q : Queues M S T) (run : T) (timeout : Nat) (s : TaskState) : Queues M S T :=
  ((q.delayFor run timeout).edit fun v => v.setState run s).next

section Fields

omit [DecidableEq M] [DecidableEq S] [DecidableEq T]

@[simp] theorem edit_vars (q : Queues M S T) (f : Vars M S T → Vars M S T) : (q.edit f).vars = f q.vars :=
  rfl

@[simp] theorem edit_queue (q : Queues M S T) (f : Vars M S T → Vars M S T) :
    (q.edit f).queue = q.queue := rfl

@[simp] theorem edit_place (q : Queues M S T) (f : Vars M S T → Vars M S T) :
    (q.edit f).place = q.place := rfl

end Fields

theorem toReady_queue (q : Queues M S T) (x : T) :
    (q.toReady x).queue .rdy = Queues.putPrio q.vars.prio x (q.queue .rdy) := by
  simp [toReady, put, enlist, ready]

theorem toFront_queue (q : Queues M S T) (x : T) : (q.toFront x).queue .rdy = x :: q.queue .rdy := by
  simp [toFront, enlist, ready]

/-- What `rt_resort_prio` does to a live task. -/
def resort (q : Queues M S T) (t : T) : Queues M S T :=
  match q.place t with
  | none => q
  | some h => (q.take t).put h t

theorem put_place_self (q : Queues M S T) (h : Head M S) (t : T) : (q.put h t).place t = some h :=
  Function.update_self ..

theorem put_place_of_ne (q : Queues M S T) (h : Head M S) {t u : T} (hu : u ≠ t) :
    (q.put h t).place u = q.place u :=
  Function.update_of_ne hu ..

theorem put_queue_self (q : Queues M S T) (h : Head M S) (t : T) :
    (q.put h t).queue h = Queues.putPrio q.vars.prio t (q.queue h) :=
  Function.update_self ..

theorem put_queue_of_ne (q : Queues M S T) {h h' : Head M S} (hh : h' ≠ h) (t : T) :
    (q.put h t).queue h' = q.queue h' :=
  Function.update_of_ne hh ..

omit [DecidableEq T] in
theorem putPrio_ne_nil (prio : T → Nat) (t : T) (l : List T) : Queues.putPrio prio t l ≠ [] := by
  simp [Queues.putPrio]

theorem take_queue_of_ne (q : Queues M S T) {t : T} {h h' : Head M S} (ht : q.place t = some h)
    (hh : h' ≠ h) : (q.take t).queue h' = q.queue h' := by
  rw [take_some ht]
  exact Function.update_of_ne hh ..

theorem resort_place_of_ne (q : Queues M S T) {t u : T} (hu : u ≠ t) :
    (q.resort t).place u = q.place u := by
  unfold resort
  split
  · rfl
  · rw [put_place_of_ne _ _ hu, take_place_of_ne hu]

theorem resort_vars (q : Queues M S T) (t : T) : (q.resort t).vars = q.vars := by
  unfold resort
  split
  · rfl
  · exact take_vars

theorem resort_ne_nil (q : Queues M S T) (t : T) (hq : q.queue .rdy ≠ []) :
    (q.resort t).queue .rdy ≠ [] := by
  unfold resort
  split
  · exact hq
  · rename_i h ht
    by_cases hh : .rdy = h
    · subst hh
      rw [put_queue_self]
      exact putPrio_ne_nil _ _ _
    · rw [put_queue_of_ne _ hh, take_queue_of_ne _ ht hh]
      exact hq

/-- `rt_tsk_pass ()` of the task `run`. -/
def pass (q : Queues M S T) (run : T) : Queues M S T :=
  match q.queue .rdy with
  | [] => q
  | x :: _ => if q.vars.prio x = q.vars.prio run then ((q.take x).toReady run).switch x else q

/-- The running task goes on unless a ready task has a priority above `p`. -/
def yieldTo (q : Queues M S T) (run : T) (p : Nat) : Queues M S T :=
  match q.queue .rdy with
  | [] => q
  | x :: _ => if q.vars.prio x > p then (q.toReady run).next else q

/-- The new priority `p` of a task `t` that is not running. -/
def reprio (q : Queues M S T) (run t : T) (p : Nat) : Queues M S T :=
  let q₁ := (q.edit fun v => v.setPrio t p).resort t
  if q.vars.state t = .READY then
    match q₁.queue .rdy with
    | [] => q₁
    | x :: _ => (q₁.take x).dispatch run x
  else q₁

/-- The running task ends. -/
def finish (q : Queues M S T) (run : T) : Queues M S T :=
  (q.edit fun v =>
    { (v.setState run .INACTIVE).setActive (v.task_id run - 1) none with run := none }).next

/-- The task `t` in the slot `i` is ended by another. -/
def kill (q : Queues M S T) (t : T) (i : Nat) : Queues M S T :=
  ({ q.take t with stale := Function.update q.stale t true }.undelay t).edit fun v => v.setActive i none

/-- The task `t` is set up and goes into the free slot `i`. -/
def enrol (q : Queues M S T) (t : T) (priority i : Nat) : Queues M S T :=
  { q with
    stale := Function.update q.stale t false
    vars :=
      { (((q.vars.setState t .READY).setPrio t priority).setEvents t 0).setActive i (some t) with
        is_tcb := Function.update q.vars.is_tcb t true
        interval_time := Function.update q.vars.interval_time t 0
        waits := Function.update q.vars.waits t 0
        task_id := Function.update q.vars.task_id t (i + 1) } }

/-- The owner of a mutex that a task of a higher priority is about to wait for. -/
def inherit (q : Queues M S T) (m : M) (run : T) : Queues M S T :=
  match q.vars.owner m with
  | some o =>
    if q.vars.mut_prio m < q.vars.prio run then
      (q.edit fun v => v.setPrio o (q.vars.prio run)).resort o
    else q
  | none => q

/-- `rt_mut_wait (m, timeout)` of the task `run`. -/
def mutWait (q : Queues M S T) (run : T) (m : M) (timeout : Nat) : Queues M S T :=
  if q.vars.level m = 0 then
    q.edit fun v => v.setMut m (u16 (v.level m + 1)) (some run) (v.prio run)
  else if q.vars.owner m = some run then
    q.edit fun v => v.setLevel m (u16 (v.level m + 1))
  else if timeout = 0 then q
  else ((q.inherit m run).put (.mucb m) run).block run timeout .WAIT_MUT

/-- The mutex `m` passes to the task `t` that has waited for it. -/
def handOver (q : Queues M S T) (m : M) (t : T) : Queues M S T :=
  (((q.take t).edit fun v => v.setRet t osOK).undelay t).edit fun v => v.setMut m 1 (some t) (v.prio t)

/-- Which task goes on where `t` has been given the mutex of `run`. -/
def goOn (q : Queues M S T) (run t : T) : Queues M S T :=
  match q.queue .rdy with
  | [] => q
  | x :: _ => if q.vars.prio run ≥ q.vars.prio x then q.dispatch run t
    else ((q.toReady run).toReady t).next

/-- `rt_mut_release (m)` of the task `run`. -/
def mutRelease (q : Queues M S T) (run : T) (m : M) : Queues M S T :=
  if q.vars.level m = 0 ∨ q.vars.owner m ≠ some run then q
  else
    let q₁ := q.edit fun v => v.setLevel m (v.level m - 1)
    if q.vars.level m - 1 ≠ 0 then q₁
    else
      let q₂ := q₁.edit fun v => v.setPrio run (v.mut_prio m)
      match q.queue (.mucb m) with
      | [] => q₂.yieldTo run (q.vars.mut_prio m)
      | t :: _ => (q₂.handOver m t).goOn run t

/-- The task `t` has the events it waits for. -/
def wake (q : Queues M S T) (t : T) : Queues M S T :=
  ((q.edit fun v => v.wakeUp t).undelay t).edit fun v => (v.setState t .READY).setRet t osEventSignal

/-- `rt_evt_wait` of the task `run`. -/
def evtWait (q : Queues M S T) (run : T) (f : BitVec 16) (timeout : Nat) (and_wait : Bool) :
    Queues M S T :=
  if and_wait then
    if q.vars.events run &&& f = f then
      q.edit fun v => v.setEvents run (v.events run &&& ~~~f)
    else
      let q₁ := q.edit fun v => v.setWaits run f
      if timeout = 0 then q₁ else q₁.block run timeout .WAIT_AND
  else
    if q.vars.events run &&& f ≠ 0 then
      q.edit fun v => (v.setWaits run (v.events run &&& f)).setEvents run (v.events run &&& ~~~f)
    else
      let q₁ := q.edit fun v => v.setWaits run f
      if timeout = 0 then q₁ else q₁.block run timeout .WAIT_OR

/-- `rt_evt_set` for the task `t`, while `run` is running. -/
def evtSet (q : Queues M S T) (run t : T) (f : BitVec 16) : Queues M S T :=
  let q₁ := q.edit fun v => v.setEvents t (v.events t ||| f)
  if q₁.vars.satisfied t then (q₁.wake t).dispatch run t else q₁

/-- `rt_evt_psh`. -/
def evtPsh (q : Queues M S T) (t : T) (f : BitVec 16) : Queues M S T :=
  let q₁ := q.edit fun v => v.setEvents t (v.events t ||| f)
  if q₁.vars.satisfied t then (q₁.wake t).put .rdy t else q₁

/-- The task `t` has the token it has waited for. -/
def grant (q : Queues M S T) (t : T) : Queues M S T :=
  ((q.take t).edit fun v => v.setRet t 1).undelay t

/-- `rt_sem_send`, while `run` is running. -/
def semSend (q : Queues M S T) (run : T) (s : S) : Queues M S T :=
  match q.queue (.scb s) with
  | [] => q.edit fun v => v.setTokens s (u16 (v.tokens s + 1))
  | t :: _ => (q.grant t).dispatch run t

/-- `rt_sem_wait` of the task `run`. -/
def semWait (q : Queues M S T) (run : T) (s : S) (timeout : Nat) : Queues M S T :=
  if q.vars.tokens s ≠ 0 then q.edit fun v => v.setTokens s (v.tokens s - 1)
  else if timeout = 0 then q
  else (q.put (.scb s) run).block run timeout .WAIT_SEM

/-- `rt_sem_psh`. -/
def semPsh (q : Queues M S T) (s : S) : Queues M S T :=
  match q.queue (.scb s) with
  | [] => q.edit fun v => v.setTokens s (u16 (v.tokens s + 1))
  | t :: _ => (((q.take t).undelay t).edit fun v => (v.setState t .READY).setRet t 1).put .rdy t

/-- The first ready task goes behind those of its priority if its time is up. -/
def swapRobin (q : Queues M S T) : Queues M S T :=
  if q.vars.robin_time = u16 q.vars.os_time then
    match q.queue .rdy with
    | [] => q
    | x :: _ => ((q.edit fun v => { v with robin_task := none }).take x).put .rdy x
  else q

/-- `rt_chk_robin`. -/
def robin (q : Queues M S T) : Queues M S T :=
  (if q.vars.robin_task ≠ (q.queue .rdy).head? then
    q.edit fun v =>
      { v with
        robin_task := (q.queue .rdy).head?
        robin_time := u16 (u16 v.os_time + v.robin_tout + 65535) }
  else q).swapRobin

/-- `rt_dec_dly`. -/
def tick (q : Queues M S T) : Queues M S T :=
  ((q.delay.takeWhile fun p => p.2 ≤ q.now + 1).map Prod.fst).foldl Queues.release
    { q with now := q.now + 1, delay := q.delay.dropWhile fun p => p.2 ≤ q.now + 1 }

/-- `rt_systick`, while `run` is running. -/
def systick (q : Queues M S T) (run : T) : Queues M S T :=
  ((q.toFront run).robin.edit fun v => { v with os_time := u32 (v.os_time + 1) }).tick.next

end Queues

/-! ## Calls on the lists -/

variable {q q' : Queues M S T} {α β : Type} {p : Rtk M S T α} {k : α → Rtk M S T β} {a : α} {h : Head M S}
  {t run : T} {l : List T}

/-- A program with a first part that is known. -/
theorem run_then (h : p.run Op.high q = (.ok a, q')) :
    (p >>= k).run Op.high q = (k a).run Op.high q' := by
  rw [Prog.run_bind, Exec.run_bind_ok h]

theorem run_get : (Call.get : Rtk M S T _).run Op.high q = (.ok q.vars, q) := by
  rw [Call.get, Prog.run_perform]
  rfl

theorem run_modify (f : Vars M S T → Vars M S T) :
    (Call.modify f).run Op.high q = (.ok (), q.edit f) := by
  rw [Call.modify, Prog.run_perform]
  rfl

theorem run_lnk : (Call.lnk h).run Op.high q = (.ok (q.queue h).head?, q) := by
  rw [Call.lnk, Prog.run_perform]
  rfl

theorem run_put_prio (ht : q.place t = none) :
    (Call.put_prio h t).run Op.high q = (.ok (), q.put h t) := by
  rw [Call.put_prio, Prog.run_perform]
  simp [Op.high, require, ht]

theorem run_get_first (hq : q.queue h = t :: l) :
    (Call.get_first h).run Op.high q = (.ok t, q.take t) := by
  rw [Call.get_first, Prog.run_perform]
  simp only [Op.high, hq]

theorem run_put_rdy_first (ht : q.place t = none) :
    (Call.put_rdy_first t).run Op.high q = (.ok (), q.enlist .rdy t (t :: q.queue .rdy)) := by
  rw [Call.put_rdy_first, Prog.run_perform]
  simp [Op.high, require, ht]

theorem run_get_same_rdy_prio (hq : q.queue .rdy = t :: l) (hr : q.vars.run = some run) :
    (Call.get_same_rdy_prio : Rtk M S T _).run Op.high q =
      if q.vars.prio t = q.vars.prio run then (.ok (some t), q.take t) else (.ok none, q) := by
  rw [Call.get_same_rdy_prio, Prog.run_perform]
  simp only [Op.high, hq, hr]

theorem run_resort_prio (ht : q.place t = some h) (hr : h = .rdy → q.vars.state t = .READY)
    (hs : q.stale t = false) : (Call.resort_prio t).run Op.high q = (.ok (), (q.take t).put h t) := by
  rw [Call.resort_prio, Prog.run_perform]
  cases h with
  | rdy => simp [Op.high, ht, require, hs, hr rfl]
  | mucb m => simp only [Op.high, ht]
  | scb s => simp only [Op.high, ht]

theorem run_resort_prio_none (ht : q.place t = none) (hr : q.vars.state t ≠ .READY)
    (hs : q.stale t = false) : (Call.resort_prio t).run Op.high q = (.ok (), q) := by
  rw [Call.resort_prio, Prog.run_perform]
  simp [Op.high, ht, require, hs, hr]

theorem run_put_only (hq : q.queue h = []) (ht : q.place t = none) (hs : h.sem_mbx = true) :
    (Call.put_only h t).run Op.high q = (.ok (), q.put h t) := by
  rw [Call.put_only, Prog.run_perform]
  simp [Op.high, require, hq, ht, hs, Queues.put, putPrio]

theorem run_put_dly {d : Nat} (ht : t ∉ q.delayed) (hd : 0 < d ∧ d < 65535) :
    (Call.put_dly t d).run Op.high q = (.ok (), { q with delay := putDate t (q.now + d) q.delay }) := by
  rw [Call.put_dly, Prog.run_perform]
  simp only [Op.high, require, if_pos (And.intro ht hd)]
  rfl

theorem run_rmv_list (hs : q.stale t = false) : (Call.rmv_list t).run Op.high q =
    (.ok (), { q.take t with stale := Function.update q.stale t true }) := by
  rw [Call.rmv_list, Prog.run_perform]
  simp [Op.high, require, hs]

theorem run_rmv_dly : (Call.rmv_dly t).run Op.high q = (.ok (), q.undelay t) := by
  rw [Call.rmv_dly, Prog.run_perform]
  rfl

theorem run_init_links (ht : q.place t = none) (hd : t ∉ q.delayed) :
    (Call.init_links t).run Op.high q =
      (.ok (), { q with stale := Function.update q.stale t false }) := by
  rw [Call.init_links, Prog.run_perform]
  simp only [Op.high, require, if_pos (And.intro ht hd)]
  rfl

theorem run_running (hr : q.vars.run = some run) :
    (running : Rtk M S T T).run Op.high q = (.ok run, q) := by
  rw [running, run_then run_get, hr]
  rfl

theorem run_rdy_prio (hq : q.queue .rdy = t :: l) :
    (rt_rdy_prio : Rtk M S T Nat).run Op.high q = (.ok (q.vars.prio t), q) := by
  rw [rt_rdy_prio, run_then run_lnk, hq]
  show (Call.get >>= _).run Op.high q = _
  rw [run_then run_get]
  rfl

/-! ## Tasks -/

theorem run_switch_req (x : T) : (rt_switch_req x).run Op.high q = (.ok (), q.switch x) := run_modify _

theorem next_eq {x : T} (hq : q.queue .rdy = x :: l) : q.next = (q.take x).switch x := by
  simp only [Queues.next, hq]

/-- The first ready task is taken and switched to. -/
theorem run_next (hq : q.queue .rdy ≠ []) :
    (Call.get_first .rdy >>= rt_switch_req : Rtk M S T Unit).run Op.high q = (.ok (), q.next) := by
  obtain ⟨x, l, hx⟩ := List.exists_cons_of_ne_nil hq
  rw [run_then (run_get_first hx), run_switch_req, next_eq hx]

theorem rt_dispatch_none_run (hq : q.queue .rdy ≠ []) :
    (rt_dispatch none).run Op.high q = (.ok (), q.next) := run_next hq

theorem rt_dispatch_run {n : T} (hr : q.vars.run = some run) (hrun : q.place run = none)
    (hn : q.place n = none) : (rt_dispatch (some n)).run Op.high q = (.ok (), q.dispatch run n) := by
  rw [rt_dispatch, run_then run_get, hr]
  show (if q.vars.prio n > q.vars.prio run then _ else _ : Rtk M S T Unit).run Op.high q = _
  unfold Queues.dispatch
  by_cases hp : q.vars.prio n > q.vars.prio run
  · rw [if_pos hp, if_pos hp, run_then (run_put_rdy_first hrun), run_then (run_modify _), run_switch_req]
    rfl
  · rw [if_neg hp, if_neg hp, run_then (run_modify _)]
    exact run_put_prio hn

theorem rt_block_zero {s : TaskState} : (rt_block 0 s : Rtk M S T Unit).run Op.high q = (.ok (), q) :=
  rfl

theorem rt_block_run {timeout : Nat} {s : TaskState} (hr : q.vars.run = some run)
    (hd : run ∉ q.delayed) (ht : timeout ≠ 0 ∧ timeout ≤ 0xffff) (hq : q.queue .rdy ≠ []) :
    (rt_block timeout s).run Op.high q = (.ok (), q.block run timeout s) := by
  unfold rt_block Queues.block Queues.delayFor
  rw [if_neg ht.1, run_then (run_running hr)]
  by_cases hlt : timeout < 0xffff
  · rw [if_pos hlt, if_pos hlt]
    show (Call.put_dly run timeout >>= _ : Rtk M S T Unit).run Op.high q = _
    rw [run_then (run_put_dly hd ⟨by omega, hlt⟩), run_then (run_modify _)]
    exact run_next hq
  · rw [if_neg hlt, if_neg hlt]
    show (Call.modify _ >>= _ : Rtk M S T Unit).run Op.high q = _
    rw [run_then (run_modify _)]
    exact run_next hq

theorem rt_preempt_run (hrun : q.place run = none) :
    (rt_preempt run).run Op.high q = (.ok (), (q.toReady run).next) := by
  have hne : (q.toReady run).queue .rdy ≠ [] := by
    rw [toReady_queue]
    exact putPrio_ne_nil _ _ _
  rw [rt_preempt, run_then (run_put_prio hrun), run_then (run_modify _)]
  exact rt_dispatch_none_run hne

theorem rt_tsk_pass_run {x : T} (hq : q.queue .rdy = x :: l) (hr : q.vars.run = some run)
    (hrun : q.place run = none) : (rt_tsk_pass : Rtk M S T Unit).run Op.high q = (.ok (), q.pass run) := by
  simp only [Queues.pass, hq]
  rw [rt_tsk_pass, Prog.run_bind, Exec.run_bind, run_get_same_rdy_prio hq hr]
  by_cases hp : q.vars.prio x = q.vars.prio run
  · simp only [if_pos hp]
    have hplace : (q.take x).place run = none := by
      by_cases hx : run = x
      · rw [hx]; exact take_place_self ..
      · rw [take_place_of_ne hx, hrun]
    rw [run_then (run_running (q := q.take x) (by rw [take_vars, hr])),
      run_then (run_put_prio (q := q.take x) hplace), run_then (run_modify _)]
    exact run_switch_req x
  · simp only [if_neg hp]
    rfl

theorem rt_tsk_prio_self_run {x : T} {p : Nat} (hq : q.queue .rdy = x :: l) (hr : q.vars.run = some run)
    (hrun : q.place run = none) :
    (rt_tsk_prio.run p : Rtk M S T Nat).run Op.high q = (.ok OS_R_OK, q.yieldTo run p) := by
  simp only [Queues.yieldTo, hq]
  rw [rt_tsk_prio.run, run_then (run_rdy_prio hq)]
  by_cases hp : q.vars.prio x > p
  · rw [if_pos hp, if_pos hp]
    show (running >>= _ : Rtk M S T Nat).run Op.high q = _
    rw [run_then (run_running hr), run_then (rt_preempt_run hrun)]
    rfl
  · rw [if_neg hp, if_neg hp]
    rfl

/-- `rt_resort_prio` of a live task. -/
theorem run_resort (hst : q.stale t = false) (hnone : q.place t = none → q.vars.state t ≠ .READY)
    (hrdy : q.place t = some .rdy → q.vars.state t = .READY) :
    (Call.resort_prio t).run Op.high q = (.ok (), q.resort t) := by
  unfold Queues.resort
  cases ht : q.place t with
  | none => exact run_resort_prio_none ht (hnone ht) hst
  | some h => exact run_resort_prio ht (fun hh => hrdy (hh ▸ ht)) hst

/-- The task identified is the one in its slot; without one the call is refused. -/
theorem rt_tsk_prio_run {x : T} {i p : Nat} (hq : q.queue .rdy = x :: l) (hr : q.vars.run = some run)
    (hrun : q.place run = none) (hi : i ≠ 0)
    (hlive : ∀ t, q.vars.os_active_TCB (i - 1) = some t → t ≠ run → q.stale t = false ∧
      (q.place t = none → q.vars.state t ≠ .READY) ∧ (q.place t = some .rdy → q.vars.state t = .READY)) :
    (rt_tsk_prio i p).run Op.high q =
      if i > os_maxtaskrun then (.ok OS_R_NOK, q) else
        match q.vars.os_active_TCB (i - 1) with
        | none => (.ok OS_R_NOK, q)
        | some t =>
          if t = run then (.ok OS_R_OK, (q.edit fun v => v.setPrio run p).yieldTo run p)
          else (.ok OS_R_OK, q.reprio run t p) := by
  rw [rt_tsk_prio, run_then run_get, if_neg hi]
  by_cases hmax : i > os_maxtaskrun
  · rw [if_pos hmax, if_pos hmax]
    rfl
  · rw [if_neg hmax, if_neg hmax]
    cases hact : q.vars.os_active_TCB (i - 1) with
    | none => rfl
    | some t =>
      simp only
      rw [run_then (run_modify _), hr]
      by_cases ht : t = run
      · subst ht
        rw [if_pos rfl, if_pos rfl]
        exact rt_tsk_prio_self_run (q := q.edit fun v => v.setPrio t p) hq hr hrun
      · obtain ⟨hst, hnone, hrdy⟩ := hlive t hact ht
        rw [if_neg (by simpa using Ne.symm ht), if_neg ht,
          run_then (run_resort (q := q.edit fun v => v.setPrio t p) hst hnone hrdy)]
        unfold Queues.reprio
        by_cases hs : q.vars.state t = .READY
        · rw [if_pos hs, if_pos hs]
          generalize hq₁ : (q.edit fun v => v.setPrio t p).resort t = q₁
          have hne : q₁.queue .rdy ≠ [] := by
            rw [← hq₁]
            exact resort_ne_nil _ t (by rw [edit_queue, hq]; simp)
          have hrun₁ : q₁.place run = none := by
            rw [← hq₁, resort_place_of_ne _ (Ne.symm ht), edit_place, hrun]
          have hr₁ : q₁.vars.run = some run := by
            rw [← hq₁, resort_vars]
            exact hr
          obtain ⟨y, m, hy⟩ := List.exists_cons_of_ne_nil hne
          have hplace : (q₁.take y).place run = none := by
            by_cases hyr : run = y
            · rw [hyr]; exact take_place_self ..
            · rw [take_place_of_ne hyr, hrun₁]
          simp only [hy]
          show (Call.get_first .rdy >>= _ : Rtk M S T Nat).run Op.high q₁ = _
          rw [run_then (run_get_first hy),
            run_then (rt_dispatch_run (q := q₁.take y) (by rw [take_vars, hr₁]) hplace take_place_self)]
          rfl
        · rw [if_neg hs, if_neg hs]
          rfl

/-- `run` is the running task: it is in no list, and some task is ready to go on in its place. -/
structure Running (q : Queues M S T) (run : T) : Prop where
  is : q.vars.run = some run
  out : q.place run = none
  awake : run ∉ q.delayed
  other : q.queue .rdy ≠ []

theorem rt_tsk_delete_self_run {i : Nat} (hr : Running q run) (hi : i = 0 ∨ i = q.vars.task_id run) :
    (rt_tsk_delete i : Rtk M S T Nat).run Op.high q = (.ok OS_R_OK, q.finish run) := by
  rw [rt_tsk_delete, run_then run_get, hr.is]
  show (if i = 0 ∨ i = q.vars.task_id run then _ else _ : Rtk M S T Nat).run Op.high q = _
  rw [if_pos hi, run_then (run_modify _), run_then (rt_dispatch_none_run (q := q.edit _) hr.other)]
  rfl

theorem rt_tsk_delete_run {i : Nat} (hr : Running q run) (hi : ¬ (i = 0 ∨ i = q.vars.task_id run))
    (hlive : ∀ t, q.vars.os_active_TCB (i - 1) = some t → q.stale t = false) :
    (rt_tsk_delete i : Rtk M S T Nat).run Op.high q =
      if i > os_maxtaskrun then (.ok OS_R_NOK, q) else
        match q.vars.os_active_TCB (i - 1) with
        | none => (.ok OS_R_NOK, q)
        | some t => (.ok OS_R_OK, q.kill t (i - 1)) := by
  rw [rt_tsk_delete, run_then run_get, hr.is]
  show (if i = 0 ∨ i = q.vars.task_id run then _ else _ : Rtk M S T Nat).run Op.high q = _
  rw [if_neg hi]
  by_cases hmax : i > os_maxtaskrun
  · rw [if_pos hmax, if_pos hmax]
    rfl
  · rw [if_neg hmax, if_neg hmax]
    cases hact : q.vars.os_active_TCB (i - 1) with
    | none => rfl
    | some t =>
      simp only
      rw [run_then (run_rmv_list (hlive t hact)), run_then run_rmv_dly, run_then (run_modify _)]
      rfl

/-! ## Mutexes -/

/-- A task goes into a waiting list, whether it is the first there or not. -/
theorem run_enqueue (hs : h.sem_mbx = true) (ht : q.place t = none) :
    (enqueue h t).run Op.high q = (.ok (), q.put h t) := by
  rw [enqueue, run_then run_lnk]
  cases hq : q.queue h with
  | nil => exact run_put_only hq ht hs
  | cons x l => exact run_put_prio ht

/-- What has to hold of the owner of a mutex for its priority to be raised. -/
def Heir (q : Queues M S T) (run : T) (m : M) : Prop :=
  ∃ o, q.vars.owner m = some o ∧ o ≠ run ∧ (q.vars.mut_prio m < q.vars.prio run →
    q.stale o = false ∧ (q.place o = none → q.vars.state o ≠ .READY) ∧
      (q.place o = some .rdy → q.vars.state o = .READY))

theorem inherit_spec (hr : Running q run) {m : M} (ho : Heir q run m) :
    Running (q.inherit m run) run ∧ (q.inherit m run).delay = q.delay ∧
      (q.inherit m run).now = q.now := by
  obtain ⟨o, howner, hne, -⟩ := ho
  unfold Queues.inherit
  simp only [howner]
  split
  · have hdelay : ((q.edit fun v => v.setPrio o (q.vars.prio run)).resort o).delay = q.delay ∧
        ((q.edit fun v => v.setPrio o (q.vars.prio run)).resort o).now = q.now := by
      unfold Queues.resort
      split
      · exact ⟨rfl, rfl⟩
      · exact ⟨take_delay, take_now⟩
    refine ⟨⟨?_, ?_, ?_, resort_ne_nil _ o hr.other⟩, hdelay⟩
    · rw [resort_vars]
      exact hr.is
    · rw [resort_place_of_ne _ hne.symm]
      exact hr.out
    · rw [Queues.delayed, hdelay.1]
      exact hr.awake
  · exact ⟨hr, rfl, rfl⟩

theorem run_inherit {m : M} (ho : Heir q run m) :
    (rt_mut_wait.inherit m run : Rtk M S T Unit).run Op.high q = (.ok (), q.inherit m run) := by
  obtain ⟨o, howner, -, hresort⟩ := ho
  rw [rt_mut_wait.inherit, run_then run_get]
  unfold Queues.inherit
  simp only [howner]
  by_cases hp : q.vars.mut_prio m < q.vars.prio run
  · obtain ⟨hst, hnone, hrdy⟩ := hresort hp
    rw [if_pos hp, if_pos hp]
    show (Call.modify _ >>= _ : Rtk M S T Unit).run Op.high q = _
    rw [run_then (run_modify _)]
    exact run_resort (q := q.edit _) hst hnone hrdy
  · rw [if_neg hp, if_neg hp]
    rfl

theorem rt_mut_wait_run {m : M} {timeout : Nat} (hr : Running q run)
    (ho : q.vars.level m ≠ 0 → q.vars.owner m ≠ some run → Heir q run m) (ht : timeout ≤ 0xffff) :
    (rt_mut_wait m timeout : Rtk M S T Nat).run Op.high q =
      (.ok (if q.vars.level m = 0 ∨ q.vars.owner m = some run then OS_R_OK else OS_R_TMO),
        q.mutWait run m timeout) := by
  rw [rt_mut_wait, run_then run_get, hr.is]
  show (if q.vars.level m = 0 then _ else _ : Rtk M S T Nat).run Op.high q = _
  unfold Queues.mutWait
  by_cases hl : q.vars.level m = 0
  · rw [if_pos hl, if_pos hl, if_pos (.inl hl), run_then (run_modify _)]
    rfl
  · rw [if_neg hl, if_neg hl]
    by_cases hown : q.vars.owner m = some run
    · rw [if_pos hown, if_pos hown, if_pos (.inr hown), run_then (run_modify _)]
      rfl
    · have hres : (if q.vars.level m = 0 ∨ q.vars.owner m = some run then OS_R_OK else OS_R_TMO) =
          OS_R_TMO := if_neg (by simp only [hl, hown, or_self, not_false_eq_true])
      rw [hres, if_neg hown, if_neg hown]
      by_cases hz : timeout = 0
      · rw [if_pos hz, if_pos hz]
        rfl
      · rw [if_neg hz, if_neg hz]
        have hheir := ho hl hown
        obtain ⟨hr', hdelay, -⟩ := inherit_spec hr hheir
        rw [run_then (run_inherit hheir), run_then (run_enqueue rfl hr'.out),
          run_then (rt_block_run (q := (q.inherit m run).put (.mucb m) run) hr'.is hr'.awake ⟨hz, ht⟩ _)]
        · rfl
        · rw [put_queue_of_ne _ (by simp)]
          exact hr'.other

theorem run_yieldTo {p : Nat} (hr : Running q run) (hp : q.vars.prio run = p) :
    ((do
      let v ← Call.get
      let rdy ← rt_rdy_prio
      if rdy > v.prio run then rt_preempt run
      return OS_R_OK) : Rtk M S T Nat).run Op.high q = (.ok OS_R_OK, q.yieldTo run p) := by
  obtain ⟨x, l, hx⟩ := List.exists_cons_of_ne_nil hr.other
  simp only [Queues.yieldTo, hx]
  rw [run_then run_get, run_then (run_rdy_prio hx), hp]
  by_cases hgt : q.vars.prio x > p
  · rw [if_pos hgt, if_pos hgt]
    show (rt_preempt run >>= _ : Rtk M S T Nat).run Op.high q = _
    rw [run_then (rt_preempt_run hr.out)]
    rfl
  · rw [if_neg hgt, if_neg hgt]
    rfl

/-- Which of the two goes on when a mutex has been handed over. -/
theorem run_inversion (hr : q.vars.run = some run) (hrun : q.place run = none) (ht : q.place t = none)
    (htr : t ≠ run) {x : T} (hq : q.queue .rdy = x :: l) :
    ((do
      let rdy ← rt_rdy_prio
      if q.vars.prio run ≥ rdy then
        rt_dispatch (some t)
      else
        Call.put_prio .rdy run
        Call.put_prio .rdy t
        Call.modify fun v => (v.setState run .READY).setState t .READY
        rt_dispatch none
      return OS_R_OK) : Rtk M S T Nat).run Op.high q =
      (.ok OS_R_OK, q.goOn run t) := by
  unfold Queues.goOn
  rw [run_then (run_rdy_prio hq)]
  simp only [hq]
  by_cases hp : q.vars.prio run ≥ q.vars.prio x
  · rw [if_pos hp, if_pos hp]
    show (rt_dispatch (some t) >>= _ : Rtk M S T Nat).run Op.high q = _
    rw [run_then (rt_dispatch_run hr hrun ht)]
    rfl
  · have hplace : (q.put .rdy run).place t = none := by rw [put_place_of_ne _ _ htr, ht]
    have hne : ((q.toReady run).toReady t).queue .rdy ≠ [] := by
      rw [toReady_queue]
      exact putPrio_ne_nil _ _ _
    rw [if_neg hp, if_neg hp]
    show (Call.put_prio .rdy run >>= _ : Rtk M S T Nat).run Op.high q = _
    rw [run_then (run_put_prio hrun), run_then (run_put_prio hplace), run_then (run_modify _)]
    exact run_then (rt_dispatch_none_run hne)

theorem rt_mut_release_run {m : M} (hr : Running q run)
    (hm : ∀ t l, q.queue (.mucb m) = t :: l → q.place t = some (.mucb m) ∧ t ≠ run) :
    (rt_mut_release m : Rtk M S T Nat).run Op.high q =
      (.ok (if q.vars.level m = 0 ∨ q.vars.owner m ≠ some run then OS_R_NOK else OS_R_OK),
        q.mutRelease run m) := by
  rw [rt_mut_release, run_then run_get, hr.is]
  show (if q.vars.level m = 0 ∨ q.vars.owner m ≠ some run then _ else _ : Rtk M S T Nat).run Op.high q = _
  unfold Queues.mutRelease
  by_cases hc : q.vars.level m = 0 ∨ q.vars.owner m ≠ some run
  · rw [if_pos hc, if_pos hc, if_pos hc]
    rfl
  · rw [if_neg hc, if_neg hc, if_neg hc, run_then (run_modify _)]
    by_cases hl : q.vars.level m - 1 ≠ 0
    · rw [if_pos hl, if_pos hl]
      rfl
    · rw [if_neg hl, if_neg hl, run_then (run_modify _), run_then run_lnk]
      simp only [edit_queue]
      cases hq : q.queue (.mucb m) with
      | nil =>
        refine run_yieldTo (q := (q.edit _).edit _) ⟨hr.is, hr.out, hr.awake, hr.other⟩ ?_
        exact Function.update_self ..
      | cons t l =>
        obtain ⟨hplace, htr⟩ := hm t l hq
        show (Call.get_first (.mucb m) >>= _ : Rtk M S T Nat).run Op.high _ = _
        rw [run_then (run_get_first (q := (q.edit _).edit _) hq), run_then (run_modify _),
          run_then run_rmv_dly, run_then (run_modify _), run_then run_get]
        generalize hq₂ : ((q.edit fun v => v.setLevel m (v.level m - 1)).edit fun v =>
          v.setPrio run (v.mut_prio m)) = q₂
        have hplace₂ : q₂.place = q.place := by rw [← hq₂]; rfl
        have hrdy : (q₂.handOver m t).queue .rdy = q.queue .rdy := by
          show (q₂.take t).queue .rdy = _
          rw [take_queue_of_ne (h := .mucb m) _ (by rw [hplace₂, hplace]) (by simp), ← hq₂]
          rfl
        have hrun₃ : (q₂.handOver m t).vars.run = some run := by
          show (q₂.take t).vars.run = _
          rw [take_vars, ← hq₂]
          exact hr.is
        have hout₃ : (q₂.handOver m t).place run = none := by
          show (q₂.take t).place run = none
          rw [take_place_of_ne htr.symm, hplace₂, hr.out]
        obtain ⟨x, l', hx⟩ := List.exists_cons_of_ne_nil hr.other
        rw [hx] at hrdy
        exact run_inversion hrun₃ hout₃ (take_place_self (q := q₂)) htr hrdy

/-! ## Events -/

/-- A wait for events that are not there. -/
theorem run_evt_block {f : BitVec 16} {timeout : Nat} {s : TaskState} (hr : Running q run)
    (ht : timeout ≤ 0xffff) :
    ((do
      Call.modify fun v => v.setWaits run f
      rt_block timeout s
      return OS_R_TMO) : Rtk M S T Nat).run Op.high q =
      (.ok OS_R_TMO, if timeout = 0 then q.edit fun v => v.setWaits run f
        else (q.edit fun v => v.setWaits run f).block run timeout s) := by
  rw [run_then (run_modify _)]
  by_cases hz : timeout = 0
  · subst hz
    rw [if_pos rfl, run_then rt_block_zero]
    rfl
  · rw [if_neg hz, run_then (rt_block_run (q := q.edit fun v => v.setWaits run f) hr.is hr.awake ⟨hz, ht⟩ hr.other)]
    rfl

theorem rt_evt_wait_run {f : BitVec 16} {timeout : Nat} {b : Bool} (hr : Running q run)
    (ht : timeout ≤ 0xffff) :
    (rt_evt_wait f timeout b : Rtk M S T Nat).run Op.high q =
      (.ok (if (if b then q.vars.events run &&& f = f else q.vars.events run &&& f ≠ 0) then OS_R_EVT
        else OS_R_TMO), q.evtWait run f timeout b) := by
  rw [rt_evt_wait, run_then run_get, hr.is]
  unfold Queues.evtWait
  show (if b = true then _ else _ : Rtk M S T Nat).run Op.high q = _
  cases b with
  | true =>
    simp only [if_true]
    by_cases hf : q.vars.events run &&& f = f
    · rw [if_pos hf, if_pos hf, if_pos hf, run_then (run_modify _)]
      rfl
    · rw [if_neg hf, if_neg hf, if_neg hf]
      exact run_evt_block hr ht
  | false =>
    simp only [Bool.false_eq_true, if_false]
    by_cases hf : q.vars.events run &&& f ≠ 0
    · rw [if_pos hf, if_pos hf, if_pos hf, run_then (run_modify _)]
      rfl
    · rw [if_neg hf, if_neg hf, if_neg hf]
      exact run_evt_block hr ht

theorem rt_evt_set_run {f : BitVec 16} {i : Nat} (hr : Running q run)
    (hlive : ∀ t, q.vars.os_active_TCB (i - 1) = some t →
      (q.edit fun v => v.setEvents t (v.events t ||| f)).vars.satisfied t = true → q.place t = none) :
    (rt_evt_set f i : Rtk M S T Unit).run Op.high q =
      match q.vars.os_active_TCB (i - 1) with
      | none => (.ok (), q)
      | some t => (.ok (), q.evtSet run t f) := by
  rw [rt_evt_set, run_then run_get]
  cases hact : q.vars.os_active_TCB (i - 1) with
  | none => rfl
  | some t =>
    simp only
    rw [run_then (run_modify _), run_then run_get]
    unfold Queues.evtSet
    by_cases hs : (q.edit fun v => v.setEvents t (v.events t ||| f)).vars.satisfied t = true
    · have hplace := hlive t hact hs
      rw [if_pos hs, if_pos hs]
      show (Call.modify _ >>= _ : Rtk M S T Unit).run Op.high _ = _
      rw [run_then (run_modify _), run_then run_rmv_dly, run_then (run_modify _)]
      exact rt_dispatch_run hr.is hr.out hplace
    · rw [if_neg hs, if_neg hs]
      rfl

theorem rt_evt_clr_run {f : BitVec 16} {i : Nat} :
    (rt_evt_clr f i : Rtk M S T Unit).run Op.high q =
      match q.vars.os_active_TCB (i - 1) with
      | none => (.ok (), q)
      | some t => (.ok (), q.edit fun v => v.setEvents t (v.events t &&& ~~~f)) := by
  rw [rt_evt_clr, run_then run_get]
  cases q.vars.os_active_TCB (i - 1) with
  | none => rfl
  | some t => exact run_modify _

theorem rt_evt_psh_run {f : BitVec 16}
    (hlive : (q.edit fun v => v.setEvents t (v.events t ||| f)).vars.satisfied t = true →
      q.place t = none) :
    (rt_evt_psh t f : Rtk M S T Unit).run Op.high q = (.ok (), q.evtPsh t f) := by
  rw [rt_evt_psh, run_then (run_modify _), run_then run_get]
  unfold Queues.evtPsh
  by_cases hs : (q.edit fun v => v.setEvents t (v.events t ||| f)).vars.satisfied t = true
  · rw [if_pos hs, if_pos hs]
    show (Call.modify _ >>= _ : Rtk M S T Unit).run Op.high _ = _
    rw [run_then (run_modify _), run_then run_rmv_dly, run_then (run_modify _)]
    exact run_put_prio (hlive hs)
  · rw [if_neg hs, if_neg hs]
    rfl

/-! ## Semaphores -/

theorem rt_sem_send_run {s : S} (hr : Running q run)
    (hs : ∀ t l, q.queue (.scb s) = t :: l → t ≠ run) :
    (rt_sem_send s : Rtk M S T Nat).run Op.high q = (.ok OS_R_OK, q.semSend run s) := by
  rw [rt_sem_send, run_then run_lnk]
  unfold Queues.semSend
  cases hq : q.queue (.scb s) with
  | nil =>
    show (Call.modify _ >>= _ : Rtk M S T Nat).run Op.high q = _
    rw [run_then (run_modify _)]
    rfl
  | cons t l =>
    have htr := hs t l hq
    show (Call.get_first _ >>= _ : Rtk M S T Nat).run Op.high q = _
    have hout : (q.take t).place run = none := by rw [take_place_of_ne htr.symm, hr.out]
    have hrun : (q.take t).vars.run = some run := by rw [take_vars, hr.is]
    rw [run_then (run_get_first hq), run_then (run_modify _), run_then run_rmv_dly]
    exact run_then (rt_dispatch_run (q := q.grant t) hrun hout (take_place_self (q := q)))

theorem rt_sem_wait_run {s : S} {timeout : Nat} (hr : Running q run) (ht : timeout ≤ 0xffff) :
    (rt_sem_wait s timeout : Rtk M S T Nat).run Op.high q =
      (.ok (if q.vars.tokens s ≠ 0 then OS_R_OK else OS_R_TMO), q.semWait run s timeout) := by
  rw [rt_sem_wait, run_then run_get]
  unfold Queues.semWait
  by_cases htok : q.vars.tokens s ≠ 0
  · rw [if_pos htok, if_pos htok, if_pos htok, run_then (run_modify _)]
    rfl
  · rw [if_neg htok, if_neg htok, if_neg htok]
    by_cases hz : timeout = 0
    · rw [if_pos hz, if_pos hz]
      rfl
    · rw [if_neg hz, if_neg hz, hr.is]
      show (enqueue _ run >>= _ : Rtk M S T Nat).run Op.high q = _
      rw [run_then (run_enqueue rfl hr.out),
        run_then (rt_block_run (q := q.put (.scb s) run) hr.is hr.awake ⟨hz, ht⟩ _)]
      · rfl
      · rw [put_queue_of_ne _ (by simp)]
        exact hr.other

theorem rt_sem_psh_run {s : S} :
    (rt_sem_psh s : Rtk M S T Unit).run Op.high q = (.ok (), q.semPsh s) := by
  rw [rt_sem_psh, run_then run_lnk]
  unfold Queues.semPsh
  cases hq : q.queue (.scb s) with
  | nil => exact run_modify _
  | cons t l =>
    show (Call.get_first _ >>= _ : Rtk M S T Unit).run Op.high q = _
    rw [run_then (run_get_first hq), run_then run_rmv_dly, run_then (run_modify _)]
    exact run_put_prio (take_place_self (q := q))

/-! ## The tick -/

theorem rt_chk_robin_run (hq : q.queue .rdy ≠ []) :
    (rt_chk_robin : Rtk M S T Unit).run Op.high q = (.ok (), q.robin) := by
  obtain ⟨x, l, hx⟩ := List.exists_cons_of_ne_nil hq
  have htail : ∀ q₁ : Queues M S T, q₁.queue = q.queue →
      ((do
        let v ← Call.get
        if v.robin_time = u16 v.os_time then
          Call.modify fun v => { v with robin_task := none }
          let p_new ← Call.get_first .rdy
          Call.put_prio .rdy p_new) : Rtk M S T Unit).run Op.high q₁ = (.ok (), q₁.swapRobin) := by
    intro q₁ hq₁
    have hx₁ : q₁.queue .rdy = x :: l := by rw [hq₁, hx]
    rw [run_then run_get]
    unfold Queues.swapRobin
    simp only [hx₁]
    by_cases ht : q₁.vars.robin_time = u16 q₁.vars.os_time
    · rw [if_pos ht, if_pos ht]
      show (Call.modify _ >>= _ : Rtk M S T Unit).run Op.high _ = _
      rw [run_then (run_modify _), run_then (run_get_first (q := q₁.edit _) hx₁)]
      exact run_put_prio take_place_self
    · rw [if_neg ht, if_neg ht]
      rfl
  rw [rt_chk_robin, run_then run_lnk, run_then run_get]
  unfold Queues.robin
  simp only [hx]
  by_cases hr : q.vars.robin_task ≠ (x :: l).head?
  · rw [if_pos hr, if_pos hr]
    show (Call.modify _ >>= _ : Rtk M S T Unit).run Op.high _ = _
    rw [run_then (run_modify _)]
    exact htail (q.edit _) rfl
  · rw [if_neg hr, if_neg hr]
    exact htail q rfl

theorem run_dec_dly
    (hm : ∀ p ∈ q.delay, p.2 ≤ q.now + 1 → q.stale p.1 = false ∧ q.place p.1 ≠ some .rdy) :
    (Call.dec_dly : Rtk M S T Unit).run Op.high q = (.ok (), q.tick) := by
  rw [Call.dec_dly, Prog.run_perform]
  simp only [Op.high, require, if_pos hm]
  rfl

end Expedition.Rtx
