import Expedition.Rtx.Frames

/-!
# The service calls and the handlers on the lists

What a thread can ask of the kernel, what an interrupt can, and what each comes to on the lists when
the kernel is in order.

* `Service` — the service calls; `Service.effect` — the result and the lists after a call.
* `Service.Fit` — what a thread has to see to before it makes the call, as the kernel does not.
* `Service.prog_run` — a call that is fit does not fault; `Service.chosen` — and keeps the invariant.
-/

namespace Expedition.Rtx

open Queues

variable {M S T : Type}

/-- The service calls of the threads. -/
inductive Service (M S T : Type) where
  | mutexWait (m : M) (millisec : Nat)
  | mutexRelease (m : M)
  | signalWait (signals : BitVec 16) (millisec : Nat)
  | signalSet (thread_id : T) (signals : BitVec 16)
  | signalClear (thread_id : T) (signals : BitVec 16)
  | semaphoreWait (s : S) (millisec : Nat)
  | semaphoreRelease (s : S)
  | delay (millisec : Nat)
  | threadYield
  | threadCreate (thread : T) (tpriority : Int)
  | threadTerminate (thread_id : T)
  | threadSetPriority (thread_id : T) (priority : Int)

/-- What the kernel takes for granted of the call `c` of the task `x`: no count overflows, the owner
of a mutex is alive where its priority would be raised, a task that is terminated has no request of an
interrupt pending, a thread created is not there yet and has a slot, and no thread names the idle
demon. -/
def Service.Fit (idle : T) (v : Vars M S T) (x : T) : Service M S T → Prop
  | .mutexWait m _ => (v.owner m = some x → v.level m < 65535) ∧
      ∀ o, v.level m ≠ 0 → v.owner m = some o → v.mut_prio m < v.prio x → Live idle v o
  | .signalSet t _ => t ≠ idle
  | .signalClear t _ => t ≠ idle
  | .threadCreate t p => -3 ≤ p → p ≤ 3 → ¬ Live idle v t ∧ rt_get_TID v ≠ 0
  | .threadTerminate t => t ≠ idle ∧ ∀ u, v.os_active_TCB (v.task_id t - 1) = some u →
      v.task_id t ≠ v.task_id x → ¬ v.desk.Pending v.psq_last u
  | .threadSetPriority t _ => t ≠ idle
  | _ => True

variable [DecidableEq M] [DecidableEq S] [DecidableEq T]

/-- The function that serves the call. -/
def Service.prog : Service M S T → Rtk M S T Nat
  | .mutexWait m n => svcMutexWait m n
  | .mutexRelease m => svcMutexRelease m
  | .signalWait f n => svcSignalWait f n
  | .signalSet t f => svcSignalSet t f
  | .signalClear t f => svcSignalClear t f
  | .semaphoreWait s n => svcSemaphoreWait s n
  | .semaphoreRelease s => svcSemaphoreRelease s
  | .delay n => svcDelay n
  | .threadYield => svcThreadYield
  | .threadCreate t p => svcThreadCreate t p
  | .threadTerminate t => svcThreadTerminate t
  | .threadSetPriority t p => svcThreadSetPriority t p

/-- The signals a wait is for, and whether it is for all of them. -/
def waitFor (signals : BitVec 16) : BitVec 16 × Bool := if signals ≠ 0 then (signals, true) else (0xFFFF, false)

/-- The events of a task are what a wait is for. -/
def Vars.has (v : Vars M S T) (x : T) (w : BitVec 16 × Bool) : Prop :=
  if w.2 then v.events x &&& w.1 = w.1 else v.events x &&& w.1 ≠ 0

instance (v : Vars M S T) (x : T) (w : BitVec 16 × Bool) : Decidable (v.has x w) := by
  unfold Vars.has
  infer_instance

/-- What a call of the running task `x` returns, and what it does to the lists. -/
def Service.effect (q : Queues M S T) (x : T) : Service M S T → Nat × Queues M S T
  | .mutexWait m n =>
    (if q.vars.level m = 0 ∨ q.vars.owner m = some x then osOK
      else if n = 0 then osErrorResource else osErrorTimeoutResource, q.mutWait x m (rt_ms2tick n))
  | .mutexRelease m =>
    (if q.vars.level m = 0 ∨ q.vars.owner m ≠ some x then osErrorResource else osOK, q.mutRelease x m)
  | .signalWait f n =>
    (if q.vars.has x (waitFor f) then osEventSignal else if n = 0 then osOK else osEventTimeout,
      q.evtWait x (waitFor f).1 (rt_ms2tick n) (waitFor f).2)
  | .signalSet t f =>
    if q.vars.is_tcb t then
      ((q.vars.events t).toNat, match q.vars.os_active_TCB (q.vars.task_id t - 1) with
        | none => q
        | some u => q.evtSet x u f)
    else (0x80000000, q)
  | .signalClear t f =>
    if q.vars.is_tcb t then
      ((q.vars.events t).toNat, match q.vars.os_active_TCB (q.vars.task_id t - 1) with
        | none => q
        | some u => q.edit fun v => v.setEvents u (v.events u &&& ~~~f))
    else (0x80000000, q)
  | .semaphoreWait s n => (q.vars.tokens s, q.semWait x s (rt_ms2tick n))
  | .semaphoreRelease s =>
    if q.vars.tokens s = 0xFFFF then (osErrorResource, q) else (osOK, q.semSend x s)
  | .delay n => if n = 0 then (osOK, q) else (osEventTimeout, q.block x (rt_ms2tick n) .WAIT_DLY)
  | .threadYield => (osOK, q.pass x)
  | .threadCreate t p =>
    if p < -3 ∨ p > 3 then (0, q)
    else (1, (q.enrol t (p + 4).toNat (rt_get_TID q.vars - 1)).dispatch x t)
  | .threadTerminate t =>
    if q.vars.is_tcb t then
      if q.vars.task_id t = q.vars.task_id x then (osOK, q.finish x)
      else match q.vars.os_active_TCB (q.vars.task_id t - 1) with
        | none => (osErrorResource, q)
        | some u => (osOK, q.kill u (q.vars.task_id t - 1))
    else (osErrorParameter, q)
  | .threadSetPriority t p =>
    if q.vars.is_tcb t then
      if p < -3 ∨ p > 3 then (osErrorValue, q)
      else match q.vars.os_active_TCB (q.vars.task_id t - 1) with
        | none => (osErrorResource, q)
        | some u =>
          if u = x then (osOK, (q.edit fun v => v.setPrio x (p + 4).toNat).yieldTo x (p + 4).toNat)
          else (osOK, q.reprio x u (p + 4).toNat)
    else (osErrorParameter, q)

/-! ## Ticks -/

theorem rt_ms2tick_le (n : Nat) : rt_ms2tick n ≤ 0xffff := by
  unfold rt_ms2tick
  split
  · exact le_refl _
  · split
    · decide
    · simp only
      split <;> omega

/-- A wait of `n` milliseconds is one of `n` ticks, but at most of 65534. -/
theorem rt_ms2tick_eq {n : Nat} (hn : n < osWaitForever) : rt_ms2tick n = min n 0xFFFE := by
  unfold rt_ms2tick
  rw [if_neg (Nat.ne_of_lt hn)]
  split
  · omega
  · rename_i hle
    have htick : u32 (u32 (1000 * n) + os_clockrate - 1) / os_clockrate = n := by
      unfold u32 os_clockrate
      omega
    simp only [htick]
    split <;> omega

theorem rt_ms2tick_zero (n : Nat) : rt_ms2tick n = 0 ↔ n = 0 := by
  rcases Nat.lt_trichotomy n osWaitForever with hlt | rfl | hgt
  · rw [rt_ms2tick_eq hlt]
    omega
  · decide
  · unfold rt_ms2tick
    unfold osWaitForever at *
    rw [if_neg (Nat.ne_of_gt hgt), if_pos (by omega)]
    omega

/-! ## The calls -/

variable {idle : T} {P : T → Prop} {q : Queues M S T} {x : T}

omit [DecidableEq M] [DecidableEq S] [DecidableEq T] in
theorem Chosen.runs (hq : Chosen idle P q x []) (hr : q.vars.run = some x) (hx : x ≠ idle) :
    Running q x :=
  ⟨hr, hq.out, hq.awake, List.ne_nil_of_mem (hq.idle_ready hx)⟩

omit [DecidableEq M] [DecidableEq S] [DecidableEq T] in
/-- A live task that is not running can be sorted in anew. -/
theorem Sound.sortable {hand : List T} {t : T} (hq : Sound idle P q hand) (ht : Live idle q.vars t)
    (hh : t ∉ hand) : q.stale t = false ∧ (q.place t = none → q.vars.state t ≠ .READY) ∧
      (q.place t = some .rdy → q.vars.state t = .READY) := by
  have hr := hq.rests t ht hh
  refine ⟨hq.kept t ht, fun hp hs => ?_, fun hp => ?_⟩
  · rw [hp, hs] at hr
    rcases hr with h | h | h <;> cases h
  · rw [hp] at hr
    exact hr

theorem svcMutexWait_run {m : M} {n : Nat} (hq : Chosen idle P q x []) (hr : q.vars.run = some x)
    (hx : x ≠ idle) (hc : (Service.mutexWait m n : Service M S T).Fit idle q.vars x) :
    (svcMutexWait m n : Rtk M S T Nat).run Op.high q = (.ok (if q.vars.level m = 0 ∨ q.vars.owner m = some x
      then osOK else if n = 0 then osErrorResource else osErrorTimeoutResource),
      q.mutWait x m (rt_ms2tick n)) := by
  have hheir : q.vars.level m ≠ 0 → q.vars.owner m ≠ some x → Heir q x m := by
    intro hl howner
    obtain ⟨o, ho, -⟩ := hq.sound.owned m hl
    have hox : o ≠ x := fun he => howner (he ▸ ho)
    exact ⟨o, ho, hox, fun hp =>
      hq.sound.sortable (hc.2 o hl ho hp) fun hm => hox (List.mem_singleton.mp hm)⟩
  rw [svcMutexWait, run_then (rt_mut_wait_run (hq.runs hr hx) hheir (rt_ms2tick_le n))]
  by_cases ho : q.vars.level m = 0 ∨ q.vars.owner m = some x
  · rw [if_pos ho, if_pos ho]
    rfl
  · rw [if_neg ho, if_neg ho]
    rfl

theorem svcMutexRelease_run {m : M} (hq : Chosen idle P q x []) (hr : q.vars.run = some x)
    (hx : x ≠ idle) : (svcMutexRelease m : Rtk M S T Nat).run Op.high q =
      (.ok (if q.vars.level m = 0 ∨ q.vars.owner m ≠ some x then osErrorResource else osOK),
        q.mutRelease x m) := by
  have hwaits : ∀ t l, q.queue (.mucb m) = t :: l → q.place t = some (.mucb m) ∧ t ≠ x := by
    intro t l hl
    have ht : q.place t = some (.mucb m) := (hq.sound.wf.place _ t).mp (hl ▸ List.mem_cons_self)
    exact ⟨ht, hq.ne_of_place ht⟩
  rw [svcMutexRelease, run_then (rt_mut_release_run (hq.runs hr hx) hwaits)]
  by_cases ho : q.vars.level m = 0 ∨ q.vars.owner m ≠ some x
  · rw [if_pos ho, if_pos ho]
    rfl
  · rw [if_neg ho, if_neg ho]
    rfl

theorem svcSignalWait_run {f : BitVec 16} {n : Nat} (hq : Chosen idle P q x []) (hr : q.vars.run = some x)
    (hx : x ≠ idle) : (svcSignalWait f n : Rtk M S T Nat).run Op.high q =
      (.ok (if q.vars.has x (waitFor f) then osEventSignal else if n = 0 then osOK else osEventTimeout),
        q.evtWait x (waitFor f).1 (rt_ms2tick n) (waitFor f).2) := by
  have hwait : ∀ w : BitVec 16 × Bool, ((do
      let res ← rt_evt_wait w.1 (rt_ms2tick n) w.2
      if res = OS_R_EVT then
        return osEventSignal
      else
        return if n = 0 then osOK else osEventTimeout) : Rtk M S T Nat).run Op.high q =
      (.ok (if q.vars.has x w then osEventSignal else if n = 0 then osOK else osEventTimeout),
        q.evtWait x w.1 (rt_ms2tick n) w.2) := by
    intro w
    rw [run_then (rt_evt_wait_run (hq.runs hr hx) (rt_ms2tick_le n))]
    by_cases ho : q.vars.has x w
    · rw [if_pos ho, if_pos (show if w.2 = true then _ else _ from ho)]
      rfl
    · rw [if_neg ho, if_neg (show ¬ if w.2 = true then _ else _ from ho)]
      rfl
  rw [svcSignalWait]
  unfold waitFor
  by_cases hf : f ≠ 0
  · rw [if_pos hf, if_pos hf]
    exact hwait (f, true)
  · rw [if_neg hf, if_neg hf]
    exact hwait (0xFFFF, false)

theorem svcSignalSet_run {t : T} {f : BitVec 16} (hq : Chosen idle P q x []) (hr : q.vars.run = some x)
    (hx : x ≠ idle) : (svcSignalSet t f : Rtk M S T Nat).run Op.high q =
      (.ok ((Service.signalSet t f : Service M S T).effect q x).1,
        ((Service.signalSet t f : Service M S T).effect q x).2) := by
  have hout : ∀ u, q.vars.os_active_TCB (q.vars.task_id t - 1) = some u →
      (q.edit fun v => v.setEvents u (v.events u ||| f)).vars.satisfied u = true → q.place u = none := by
    intro u hu hsat
    have hstate := Vars.state_of_satisfied hsat
    have hux : u ≠ x := hq.ne_of_state fun he => by
      rcases hstate with hs | hs <;> rw [show q.vars.state u = _ from hs] at he <;> cases he
    exact hq.sound.place_of_waiting (.inr ⟨_, hu⟩) (fun hm => hux (List.mem_singleton.mp hm)) hstate
  rw [svcSignalSet, run_then run_get]
  simp only [Service.effect]
  by_cases ht : q.vars.is_tcb t = true
  · rw [if_pos ht, if_pos ht]
    have hset := rt_evt_set_run (hq.runs hr hx) hout
    cases hact : q.vars.os_active_TCB (q.vars.task_id t - 1) with
    | none =>
      rw [hact] at hset
      rw [run_then hset]
      rfl
    | some u =>
      rw [hact] at hset
      rw [run_then hset]
      rfl
  · rw [if_neg ht, if_neg ht]
    rfl

omit [DecidableEq T] in
theorem svcSignalClear_run [DecidableEq T] {t : T} {f : BitVec 16} :
    (svcSignalClear t f : Rtk M S T Nat).run Op.high q =
      (.ok ((Service.signalClear t f : Service M S T).effect q x).1,
        ((Service.signalClear t f : Service M S T).effect q x).2) := by
  rw [svcSignalClear, run_then run_get]
  simp only [Service.effect]
  by_cases ht : q.vars.is_tcb t = true
  · rw [if_pos ht, if_pos ht]
    have hclr := rt_evt_clr_run (q := q) (f := f) (i := q.vars.task_id t)
    cases hact : q.vars.os_active_TCB (q.vars.task_id t - 1) with
    | none =>
      rw [hact] at hclr
      rw [run_then hclr]
      rfl
    | some u =>
      rw [hact] at hclr
      rw [run_then hclr]
      rfl
  · rw [if_neg ht, if_neg ht]
    rfl

theorem svcSemaphoreWait_run {s : S} {n : Nat} (hq : Chosen idle P q x []) (hr : q.vars.run = some x)
    (hx : x ≠ idle) : (svcSemaphoreWait s n : Rtk M S T Nat).run Op.high q =
      (.ok (q.vars.tokens s), q.semWait x s (rt_ms2tick n)) := by
  rw [svcSemaphoreWait, run_then (rt_sem_wait_run (hq.runs hr hx) (rt_ms2tick_le n))]
  by_cases ht : q.vars.tokens s ≠ 0
  · rw [if_pos ht, if_neg (by decide), run_then run_get]
    have hone : (q.semWait x s (rt_ms2tick n)).vars.tokens s + 1 = q.vars.tokens s := by
      unfold Queues.semWait
      rw [if_pos ht]
      show Function.update q.vars.tokens s (q.vars.tokens s - 1) s + 1 = _
      rw [Function.update_self]
      omega
    show (Except.ok ((q.semWait x s (rt_ms2tick n)).vars.tokens s + 1), _) = _
    rw [hone]
  · rw [if_neg ht, if_pos rfl, not_ne_iff.mp ht]
    rfl

theorem svcSemaphoreRelease_run {s : S} (hq : Chosen idle P q x []) (hr : q.vars.run = some x)
    (hx : x ≠ idle) : (svcSemaphoreRelease s : Rtk M S T Nat).run Op.high q =
      (.ok ((Service.semaphoreRelease s : Service M S T).effect q x).1,
        ((Service.semaphoreRelease s : Service M S T).effect q x).2) := by
  have hwaits : ∀ t l, q.queue (.scb s) = t :: l → t ≠ x := fun t l hl =>
    hq.ne_of_place ((hq.sound.wf.place _ t).mp (hl ▸ List.mem_cons_self))
  rw [svcSemaphoreRelease, run_then run_get]
  simp only [Service.effect]
  by_cases ht : q.vars.tokens s = 0xFFFF
  · rw [if_pos ht, if_pos ht]
    rfl
  · rw [if_neg ht, if_neg ht, run_then (rt_sem_send_run (hq.runs hr hx) hwaits)]
    rfl

theorem svcDelay_run {n : Nat} (hq : Chosen idle P q x []) (hr : q.vars.run = some x) (hx : x ≠ idle) :
    (svcDelay n : Rtk M S T Nat).run Op.high q =
      (.ok ((Service.delay n : Service M S T).effect q x).1, ((Service.delay n : Service M S T).effect q x).2) := by
  have hruns := hq.runs hr hx
  unfold svcDelay
  simp only [Service.effect]
  by_cases hn : n = 0
  · rw [if_pos hn, if_pos hn]
    rfl
  · rw [if_neg hn, if_neg hn, run_then (rt_block_run hruns.is hruns.awake
      ⟨fun h => hn ((rt_ms2tick_zero n).mp h), rt_ms2tick_le n⟩ hruns.other)]
    rfl

theorem svcThreadYield_run (hq : Chosen idle P q x []) (hr : q.vars.run = some x) (hx : x ≠ idle) :
    (svcThreadYield : Rtk M S T Nat).run Op.high q = (.ok osOK, q.pass x) := by
  obtain ⟨y, l, hl⟩ := List.exists_cons_of_ne_nil (hq.runs hr hx).other
  rw [svcThreadYield, run_then (rt_tsk_pass_run hl hr hq.out)]
  rfl

omit [DecidableEq M] [DecidableEq S] [DecidableEq T] in
/-- The slot found is free. -/
theorem rt_get_TID_spec {v : Vars M S T} (h : rt_get_TID v ≠ 0) :
    v.os_active_TCB (rt_get_TID v - 1) = none ∧ rt_get_TID v - 1 < os_maxtaskrun := by
  unfold rt_get_TID at *
  cases hf : (List.range os_maxtaskrun).find? fun i => (v.os_active_TCB i).isNone with
  | none =>
    rw [hf] at h
    exact absurd rfl h
  | some i =>
    have hnone := List.find?_some hf
    exact ⟨Option.isNone_iff_eq_none.mp hnone, List.mem_range.mp (List.mem_of_find?_eq_some hf)⟩

theorem rt_init_context_run {t : T} {p : Nat} (ht : q.place t = none) (hd : t ∉ q.delayed) :
    (rt_init_context t p : Rtk M S T Unit).run Op.high q = (.ok (), { q with
      stale := Function.update q.stale t false
      vars := { ((q.vars.setState t .READY).setPrio t p).setEvents t 0 with
        is_tcb := Function.update q.vars.is_tcb t true
        interval_time := Function.update q.vars.interval_time t 0
        waits := Function.update q.vars.waits t 0 } }) := by
  rw [rt_init_context, run_then (run_modify _)]
  exact run_init_links ht hd

theorem svcThreadCreate_run {t : T} {p : Int} (hr : q.vars.run = some x) (hout : q.place x = none)
    (ht : -3 ≤ p → p ≤ 3 → q.place t = none ∧ t ∉ q.delayed ∧ rt_get_TID q.vars ≠ 0) :
    (svcThreadCreate t p : Rtk M S T Nat).run Op.high q =
      (.ok ((Service.threadCreate t p : Service M S T).effect q x).1,
        ((Service.threadCreate t p : Service M S T).effect q x).2) := by
  unfold svcThreadCreate
  simp only [Service.effect]
  by_cases hp : p < -3 ∨ p > 3
  · rw [if_pos hp, if_pos hp]
    rfl
  · rw [not_or] at hp
    obtain ⟨hplace, hd, hslot⟩ := ht (by omega) (by omega)
    rw [if_neg (not_or.mpr hp), if_neg (not_or.mpr hp), run_then (rt_init_context_run hplace hd),
      run_then run_get]
    show (if rt_get_TID q.vars = 0 then _ else _ : Rtk M S T Nat).run Op.high _ = _
    rw [if_neg hslot]
    show (Call.modify _ >>= _ : Rtk M S T Nat).run Op.high _ = _
    have hone : rt_get_TID q.vars - 1 + 1 = rt_get_TID q.vars := by omega
    rw [run_then (run_modify _)]
    have hadmit : Queues.edit { q with
        stale := Function.update q.stale t false
        vars := { ((q.vars.setState t .READY).setPrio t (p + 4).toNat).setEvents t 0 with
          is_tcb := Function.update q.vars.is_tcb t true
          interval_time := Function.update q.vars.interval_time t 0
          waits := Function.update q.vars.waits t 0 } } (fun v =>
          { v.setActive (rt_get_TID q.vars - 1) (some t) with
            task_id := Function.update v.task_id t (rt_get_TID q.vars) }) =
        q.enrol t (p + 4).toNat (rt_get_TID q.vars - 1) := by
      unfold Queues.enrol
      rw [hone]
      rfl
    have hdispatch := rt_dispatch_run (q := q.enrol t (p + 4).toNat (rt_get_TID q.vars - 1)) hr hout hplace
    refine (congrArg (Prog.run Op.high _) hadmit).trans ?_
    exact run_then hdispatch

theorem svcThreadTerminate_run {t : T} (hq : Chosen idle P q x []) (hr : q.vars.run = some x)
    (hx : x ≠ idle) (hti : t ≠ idle) : (svcThreadTerminate t : Rtk M S T Nat).run Op.high q =
      (.ok ((Service.threadTerminate t : Service M S T).effect q x).1,
        ((Service.threadTerminate t : Service M S T).effect q x).2) := by
  have hruns := hq.runs hr hx
  rw [svcThreadTerminate, run_then run_get]
  simp only [Service.effect]
  by_cases ht : q.vars.is_tcb t = true
  · obtain ⟨hpos, hle⟩ := hq.sound.ids t ht hti
    rw [if_pos ht, if_pos ht]
    by_cases hself : q.vars.task_id t = q.vars.task_id x
    · show (rt_tsk_delete _ >>= _ : Rtk M S T Nat).run Op.high q = _
      rw [if_pos hself, run_then (rt_tsk_delete_self_run hruns (.inr hself))]
      rfl
    · have hdel := rt_tsk_delete_run hruns (i := q.vars.task_id t) (by omega)
        fun u hu => hq.sound.kept u (.inr ⟨_, hu⟩)
      rw [if_neg (by omega)] at hdel
      show (rt_tsk_delete _ >>= _ : Rtk M S T Nat).run Op.high q = _
      rw [if_neg hself]
      cases hact : q.vars.os_active_TCB (q.vars.task_id t - 1) with
      | none =>
        rw [hact] at hdel
        rw [run_then hdel]
        rfl
      | some u =>
        rw [hact] at hdel
        rw [run_then hdel]
        rfl
  · rw [if_neg ht, if_neg ht]
    rfl

theorem svcThreadSetPriority_run {t : T} {p : Int} (hq : Chosen idle P q x []) (hr : q.vars.run = some x)
    (hx : x ≠ idle) (hti : t ≠ idle) : (svcThreadSetPriority t p : Rtk M S T Nat).run Op.high q =
      (.ok ((Service.threadSetPriority t p : Service M S T).effect q x).1,
        ((Service.threadSetPriority t p : Service M S T).effect q x).2) := by
  obtain ⟨y, l, hl⟩ := List.exists_cons_of_ne_nil (hq.runs hr hx).other
  rw [svcThreadSetPriority, run_then run_get]
  simp only [Service.effect]
  by_cases ht : q.vars.is_tcb t = true
  · obtain ⟨hpos, hle⟩ := hq.sound.ids t ht hti
    rw [if_pos ht, if_pos ht]
    by_cases hp : p < -3 ∨ p > 3
    · rw [if_pos hp, if_pos hp]
      rfl
    · have hprio := rt_tsk_prio_run (i := q.vars.task_id t) (p := (p + 4).toNat) hl hr hq.out (by omega)
        fun u hu hux => hq.sound.sortable (.inr ⟨_, hu⟩) fun hm => hux (List.mem_singleton.mp hm)
      rw [if_neg (by omega)] at hprio
      rw [if_neg hp, if_neg hp]
      show (rt_tsk_prio _ _ >>= _ : Rtk M S T Nat).run Op.high q = _
      cases hact : q.vars.os_active_TCB (q.vars.task_id t - 1) with
      | none =>
        rw [hact] at hprio
        rw [run_then hprio]
        rfl
      | some u =>
        rw [hact] at hprio
        by_cases hux : u = x
        · simp only [hux, if_true] at hprio ⊢
          rw [run_then hprio]
          rfl
        · simp only [hux, if_false] at hprio ⊢
          rw [run_then hprio]
          rfl
  · rw [if_neg ht, if_neg ht]
    rfl

omit [DecidableEq M] [DecidableEq S] [DecidableEq T] in
/-- A thread that is not there is in no list. -/
theorem Sound.absent {hand : List T} {t : T} (hq : Sound idle P q hand) (ht : ¬ Live idle q.vars t) :
    q.place t = none ∧ t ∉ q.delayed := by
  refine ⟨?_, fun hm => ht (hq.dated t hm)⟩
  by_contra hp
  obtain ⟨h, hp⟩ := Option.ne_none_iff_exists'.mp hp
  exact ht (hq.placed t h hp)

/-- **A call that is fit is served.** -/
theorem Service.prog_run {c : Service M S T} (hq : Chosen idle P q x []) (hr : q.vars.run = some x)
    (hx : x ≠ idle) (hc : c.Fit idle q.vars x) :
    c.prog.run Op.high q = (.ok (c.effect q x).1, (c.effect q x).2) := by
  cases c with
  | mutexWait m n => exact svcMutexWait_run hq hr hx hc
  | mutexRelease m => exact svcMutexRelease_run hq hr hx
  | signalWait f n => exact svcSignalWait_run hq hr hx
  | signalSet t f => exact svcSignalSet_run hq hr hx
  | signalClear t f => exact svcSignalClear_run
  | semaphoreWait s n => exact svcSemaphoreWait_run hq hr hx
  | semaphoreRelease s => exact svcSemaphoreRelease_run hq hr hx
  | delay n => exact svcDelay_run hq hr hx
  | threadYield => exact svcThreadYield_run hq hr hx
  | threadCreate t p =>
    refine svcThreadCreate_run hr hq.out fun hlo hhi => ?_
    obtain ⟨hlive, hslot⟩ := hc hlo hhi
    exact ⟨(hq.sound.absent hlive).1, (hq.sound.absent hlive).2, hslot⟩
  | threadTerminate t => exact svcThreadTerminate_run hq hr hx hc.1
  | threadSetPriority t p => exact svcThreadSetPriority_run hq hr hx hc

/-- **A call that is fit keeps the invariant, and chooses who runs next.** -/
theorem Service.chosen {c : Service M S T} (hq : Chosen idle P q x []) (hx : x ≠ idle)
    (hc : c.Fit idle q.vars x) (hP : ∀ t, P t → q.vars.desk.Pending q.vars.psq_last t) :
    ∃ y, Chosen idle P (c.effect q x).2 y [] := by
  cases c with
  | mutexWait m n => exact hq.mutWait hx hc.1 hc.2
  | mutexRelease m => exact hq.mutRelease hx m
  | signalWait f n => exact hq.evtWait hx _
  | signalSet t f =>
    simp only [Service.effect]
    split
    · cases hact : q.vars.os_active_TCB (q.vars.task_id t - 1) with
      | none => exact ⟨x, hq⟩
      | some u => exact hq.evtSet (.inr ⟨_, hact⟩) f
    · exact ⟨x, hq⟩
  | signalClear t f =>
    simp only [Service.effect]
    split
    · cases hact : q.vars.os_active_TCB (q.vars.task_id t - 1) with
      | none => exact ⟨x, hq⟩
      | some u =>
        have hclr : Chosen idle P (q.edit fun v => v.setEvents u (v.events u &&& ~~~f)) x [] :=
          hq.edit ⟨rfl, rfl, rfl, rfl, rfl, rfl, rfl, rfl⟩ rfl
        exact ⟨x, hclr⟩
    · exact ⟨x, hq⟩
  | semaphoreWait s n => exact hq.semWait hx s
  | semaphoreRelease s =>
    simp only [Service.effect]
    split
    · exact ⟨x, hq⟩
    · exact hq.semSend s
  | delay n =>
    simp only [Service.effect]
    split
    · exact ⟨x, hq⟩
    · rename_i hn
      refine hq.sound.block hq.awake hx ?_ (by simp) fun h => hn ((rt_ms2tick_zero n).mp h)
      rw [hq.out]
      exact .inl rfl
  | threadYield => exact hq.pass
  | threadCreate t p =>
    simp only [Service.effect]
    split
    · exact ⟨x, hq⟩
    · rename_i hp
      obtain ⟨hlive, hslot⟩ := hc (by omega) (by omega)
      exact hq.create hlive (rt_get_TID_spec hslot).1 (rt_get_TID_spec hslot).2
  | threadTerminate t =>
    simp only [Service.effect]
    split
    · split
      · exact hq.finish hx
      · rename_i hself
        cases hact : q.vars.os_active_TCB (q.vars.task_id t - 1) with
        | none => exact ⟨x, hq⟩
        | some u =>
          refine ⟨x, hq.kill ?_ hact fun h => hc.2 u hact hself (hP u h)⟩
          rintro rfl
          have hslot := hq.sound.slots _ _ hact
          have hid := hslot.2.2.1
          rename_i htcb
          have hpos := (hq.sound.ids t htcb hc.1).1
          omega
    · exact ⟨x, hq⟩
  | threadSetPriority t p =>
    simp only [Service.effect]
    split
    · split
      · exact ⟨x, hq⟩
      · cases hact : q.vars.os_active_TCB (q.vars.task_id t - 1) with
        | none => exact ⟨x, hq⟩
        | some u =>
          simp only
          split
          · exact hq.reself _
          · rename_i hux
            exact hq.reprio (.inr ⟨_, hact⟩) hux _
    · exact ⟨x, hq⟩

/-- Only the calls for a mutex or a semaphore do anything to the counters. -/
theorem Service.effect_words (c : Service M S T) (q : Queues M S T) (x : T) :
    (c.effect q x).2.vars.words = match c with
      | .mutexWait m n => (q.mutWait x m (rt_ms2tick n)).vars.words
      | .mutexRelease m => (q.mutRelease x m).vars.words
      | .semaphoreWait s n => (q.semWait x s (rt_ms2tick n)).vars.words
      | .semaphoreRelease s => if q.vars.tokens s = 0xFFFF then q.vars.words else (q.semSend x s).vars.words
      | _ => q.vars.words := by
  cases c with
  | mutexWait m n => rfl
  | mutexRelease m => rfl
  | signalWait f n => exact evtWait_words q x _ _ _
  | signalSet t f =>
    simp only [Service.effect]
    split
    · cases q.vars.os_active_TCB (q.vars.task_id t - 1) with
      | none => rfl
      | some u => exact evtSet_words q x u f
    · rfl
  | signalClear t f =>
    simp only [Service.effect]
    split
    · cases q.vars.os_active_TCB (q.vars.task_id t - 1) <;> rfl
    · rfl
  | semaphoreWait s n => rfl
  | semaphoreRelease s =>
    simp only [Service.effect]
    split <;> rfl
  | delay n =>
    simp only [Service.effect]
    split
    · rfl
    · exact (Moved.block _ _ _ _).words
  | threadYield => exact (Moved.pass _ _).words
  | threadCreate t p =>
    simp only [Service.effect]
    split
    · rfl
    · exact (Moved.dispatch (q.enrol _ _ _) _ _).words
  | threadTerminate t =>
    simp only [Service.effect]
    split
    · split
      · exact finish_words q x
      · cases q.vars.os_active_TCB (q.vars.task_id t - 1) with
        | none => rfl
        | some u => exact kill_words q u _
    · rfl
  | threadSetPriority t p =>
    simp only [Service.effect]
    split
    · split
      · rfl
      · cases q.vars.os_active_TCB (q.vars.task_id t - 1) with
        | none => rfl
        | some u =>
          simp only
          split
          · exact (Moved.yieldTo (q.edit fun v => v.setPrio x _) _ _).words
          · exact reprio_words q x u _
    · rfl

/-- A call does nothing to the requests of the interrupts and to the clock. -/
theorem Service.effect_rest (c : Service M S T) (q : Queues M S T) (x : T) : (c.effect q x).2.vars.words =
    { (c.effect q x).2.vars.words with desk := q.vars.desk, clock := q.vars.clock } := by
  rw [c.effect_words q x]
  cases c with
  | mutexWait m n =>
    simp only [mutWait_words]
    split
    · rfl
    · split <;> rfl
  | mutexRelease m =>
    simp only [mutRelease_words]
    split
    · rfl
    · split
      · rfl
      · cases q.queue (.mucb m) <;> rfl
  | semaphoreWait s n =>
    simp only [semWait_words]
    split <;> rfl
  | semaphoreRelease s =>
    simp only [semSend_words]
    split
    · rfl
    · cases q.queue (.scb s) <;> rfl
  | _ => rfl

theorem Service.effect_desk (c : Service M S T) (q : Queues M S T) (x : T) :
    (c.effect q x).2.vars.desk = q.vars.desk :=
  congrArg Words.desk (c.effect_rest q x)

theorem Service.effect_clock (c : Service M S T) (q : Queues M S T) (x : T) :
    (c.effect q x).2.vars.clock = q.vars.clock :=
  congrArg Words.clock (c.effect_rest q x)

end Expedition.Rtx
