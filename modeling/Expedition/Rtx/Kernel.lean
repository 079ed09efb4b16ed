import Expedition.Rtx.Queues

/-!
# The kernel (`rt_Task.c`, `rt_Mutex.c`, `rt_Event.c`, `rt_Semaphore.c`, `rt_System.c`, `rt_Robin.c`, `rt_CMSIS.c`)

The kernel functions as programs over the calls of `rt_List.c`: the same text runs on the pointers and
on the lists.

* `rt_dispatch`, `rt_block`, `rt_tsk_prio`, `rt_tsk_delete` … — tasks;
* `rt_mut_wait`, `rt_mut_release`, `rt_evt_wait`, `rt_evt_set`, `rt_sem_wait`, `rt_sem_send` — what the
  threads wait for;
* `rt_psq_enq`, `rt_pop_req` — what an interrupt asks of the kernel, and how it is served later;
* `rt_chk_robin`, `rt_systick` — the tick;
* `svcMutexWait` … `svcThreadTerminate` — the service calls of the threads, and `svc` the handler that
  stores the result and switches to the task chosen.
-/

namespace Expedition.Rtx

/-- A kernel function. -/
abbrev Rtk (M S T α : Type) := Prog (Op M S T) Op.Res α

/-! ## Calls -/

namespace Call

variable {M S T : Type}

def get : Rtk M S T (Vars M S T) := Prog.perform (Op.get : Op M S T)
def modify (f : Vars M S T → Vars M S T) : Rtk M S T Unit := Prog.perform (Op.modify f)
def lnk (h : Head M S) : Rtk M S T (Option T) := Prog.perform (Op.lnk h : Op M S T)
def put_prio (h : Head M S) (t : T) : Rtk M S T Unit := Prog.perform (Op.put_prio h t)
def get_first (h : Head M S) : Rtk M S T T := Prog.perform (Op.get_first h : Op M S T)
def put_rdy_first (t : T) : Rtk M S T Unit := Prog.perform (Op.put_rdy_first t : Op M S T)
def get_same_rdy_prio : Rtk M S T (Option T) := Prog.perform (Op.get_same_rdy_prio : Op M S T)
def resort_prio (t : T) : Rtk M S T Unit := Prog.perform (Op.resort_prio t : Op M S T)
def put_only (h : Head M S) (t : T) : Rtk M S T Unit := Prog.perform (Op.put_only h t)
def put_dly (t : T) (delay : Nat) : Rtk M S T Unit := Prog.perform (Op.put_dly t delay : Op M S T)
def dec_dly : Rtk M S T Unit := Prog.perform (Op.dec_dly : Op M S T)
def rmv_list (t : T) : Rtk M S T Unit := Prog.perform (Op.rmv_list t : Op M S T)
def rmv_dly (t : T) : Rtk M S T Unit := Prog.perform (Op.rmv_dly t : Op M S T)
def init_links (t : T) : Rtk M S T Unit := Prog.perform (Op.init_links t : Op M S T)

end Call

section Pointers

variable {M S T : Type}

/-- A fault ends the program. -/
def fault {α : Type} (e : Fault) : Rtk M S T α := Prog.call (.fault e) nofun

/-- Follow a pointer. -/
def follow {α : Type} : Option α → Rtk M S T α
  | some a => pure a
  | none => fault .null_deref

/-- `os_tsk.run`, to be followed. -/
def running : Rtk M S T T := do
  let v ← Call.get
  follow v.run

/-- `rt_rdy_prio()`. -/
def rt_rdy_prio : Rtk M S T Nat := do
  let p ← Call.lnk .rdy
  let t ← follow p
  let v ← Call.get
  return v.prio t

end Pointers

variable {M S T : Type} [DecidableEq M] [DecidableEq S] [DecidableEq T]

/-! ## Constants -/

def OS_R_OK : Nat := 0x00
def OS_R_TMO : Nat := 0x01
def OS_R_EVT : Nat := 0x02
def OS_R_NOK : Nat := 0xff

def osOK : Nat := 0
def osEventSignal : Nat := 0x08
def osEventTimeout : Nat := 0x40
def osErrorParameter : Nat := 0x80
def osErrorResource : Nat := 0x81
def osErrorTimeoutResource : Nat := 0xC1
def osErrorValue : Nat := 0x86

/-- `OS_TASKCNT`, on the targets that have most. -/
def os_taskcnt : Nat := 14

/-- `OS_TASK_CNT`: with `OS_TIMERS` on there is one thread more. -/
def os_maxtaskrun : Nat := os_taskcnt + 1

/-- `OS_FIFOSZ`. -/
def os_fifo_size : Nat := 16

/-- `OS_ROBINTOUT`. -/
def os_robintout : Nat := 5

/-- `OS_ROBIN`, which is on, above `OS_ROBINTOUT`. -/
def os_rrobin : Nat := 1 <<< 16 ||| os_robintout

/-- The time the idle demon has as its task identification. -/
def idle_id : Nat := 255

/-! ## Setters -/

namespace Vars

def setPrio (v : Vars M S T) (t : T) (p : Nat) : Vars M S T :=
  { v with prio := Function.update v.prio t p }

def setEvents (v : Vars M S T) (t : T) (e : BitVec 16) : Vars M S T :=
  { v with events := Function.update v.events t e }

def setWaits (v : Vars M S T) (t : T) (w : BitVec 16) : Vars M S T :=
  { v with waits := Function.update v.waits t w }

def setRet (v : Vars M S T) (t : T) (r : Nat) : Vars M S T :=
  { v with ret := Function.update v.ret t r }

def setActive (v : Vars M S T) (i : Nat) (t : Option T) : Vars M S T :=
  { v with os_active_TCB := Function.update v.os_active_TCB i t }

/-- Write `level`, `owner` and `prio` of a mutex. -/
def setMut (v : Vars M S T) (m : M) (level : Nat) (owner : Option T) (prio : Nat) : Vars M S T :=
  { v with
    level := Function.update v.level m level
    owner := Function.update v.owner m owner
    mut_prio := Function.update v.mut_prio m prio }

def setLevel (v : Vars M S T) (m : M) (level : Nat) : Vars M S T :=
  { v with level := Function.update v.level m level }

def setTokens (v : Vars M S T) (s : S) (n : Nat) : Vars M S T :=
  { v with tokens := Function.update v.tokens s n }

end Vars

/-! ## Tasks -/

def rt_switch_req (p_new : T) : Rtk M S T Unit :=
  Call.modify fun v => { v.setState p_new .RUNNING with new_tsk := some p_new }

def rt_dispatch : Option T → Rtk M S T Unit
  | none => do
    -- Running task was blocked: continue with highest ready task
    let next_TCB ← Call.get_first .rdy
    rt_switch_req next_TCB
  | some next_TCB => do
    let v ← Call.get
    let run ← follow v.run
    if v.prio next_TCB > v.prio run then
      -- preempt running task
      Call.put_rdy_first run
      Call.modify fun v => v.setState run .READY
      rt_switch_req next_TCB
    else
      -- put next task into ready list, no task switch takes place
      Call.modify fun v => v.setState next_TCB .READY
      Call.put_prio .rdy next_TCB

def rt_block (timeout : Nat) (block_state : TaskState) : Rtk M S T Unit :=
  if timeout = 0 then pure ()
  else do
    let run ← running
    if timeout < 0xffff then
      Call.put_dly run timeout
    Call.modify fun v => v.setState run block_state
    let next_TCB ← Call.get_first .rdy
    rt_switch_req next_TCB

def rt_tsk_pass : Rtk M S T Unit := do
  let p_new ← Call.get_same_rdy_prio
  match p_new with
  | none => pure ()
  | some p_new => do
    let run ← running
    Call.put_prio .rdy run
    Call.modify fun v => v.setState run .READY
    rt_switch_req p_new

/-- The running task goes back into the ready list, and the first task there goes on. -/
def rt_preempt (run : T) : Rtk M S T Unit := do
  Call.put_prio .rdy run
  Call.modify fun v => v.setState run .READY
  rt_dispatch none

/-- The part of `rt_tsk_prio` for the running task. -/
def rt_tsk_prio.run (new_prio : Nat) : Rtk M S T Nat := do
  let p ← rt_rdy_prio
  if p > new_prio then
    let run ← running
    rt_preempt run
  return OS_R_OK

def rt_tsk_prio (task_id : Nat) (new_prio : Nat) : Rtk M S T Nat := do
  let v ← Call.get
  if task_id = 0 then
    let run ← follow v.run
    Call.modify fun v => v.setPrio run new_prio
    rt_tsk_prio.run new_prio
  else if task_id > os_maxtaskrun then
    return OS_R_NOK
  else
    match v.os_active_TCB (task_id - 1) with
    | none => return OS_R_NOK
    | some p_task => do
      Call.modify fun v => v.setPrio p_task new_prio
      if v.run = some p_task then
        rt_tsk_prio.run new_prio
      else
        Call.resort_prio p_task
        if v.state p_task = .READY then
          let p_first ← Call.get_first .rdy
          rt_dispatch (some p_first)
        return OS_R_OK

def rt_tsk_delete (task_id : Nat) : Rtk M S T Nat := do
  let v ← Call.get
  let run ← follow v.run
  if task_id = 0 ∨ task_id = v.task_id run then
    -- Terminate itself.
    Call.modify fun v =>
      { (v.setState run .INACTIVE).setActive (v.task_id run - 1) none with run := none }
    rt_dispatch none
    return OS_R_OK
  else if task_id > os_maxtaskrun then
    return OS_R_NOK
  else
    match v.os_active_TCB (task_id - 1) with
    | none => return OS_R_NOK
    | some task_context => do
      Call.rmv_list task_context
      Call.rmv_dly task_context
      Call.modify fun v => v.setActive (task_id - 1) none
      return OS_R_OK

/-- `rt_init_context`, without the stack. -/
def rt_init_context (p_TCB : T) (priority : Nat) : Rtk M S T Unit := do
  Call.modify fun v =>
    { ((v.setState p_TCB .READY).setPrio p_TCB priority).setEvents p_TCB 0 with
      is_tcb := Function.update v.is_tcb p_TCB true
      interval_time := Function.update v.interval_time p_TCB 0
      waits := Function.update v.waits p_TCB 0 }
  Call.init_links p_TCB

/-- `rt_get_TID`: the first free slot, counted from one, or zero. -/
def rt_get_TID (v : Vars M S T) : Nat :=
  match (List.range os_maxtaskrun).find? fun i => (v.os_active_TCB i).isNone with
  | some i => i + 1
  | none => 0

/-! ## Mutexes -/

/-- Into the waiting list of a mutex or a semaphore: the first there is linked in by hand. -/
def enqueue (p_CB : Head M S) (run : T) : Rtk M S T Unit := do
  let first ← Call.lnk p_CB
  if first.isSome then
    Call.put_prio p_CB run
  else
    Call.put_only p_CB run

/-- Raise the owner task priority if lower than current priority. -/
def rt_mut_wait.inherit (p_MCB : M) (run : T) : Rtk M S T Unit := do
  let v ← Call.get
  if v.mut_prio p_MCB < v.prio run then
    let owner ← follow (v.owner p_MCB)
    Call.modify fun v => v.setPrio owner (v.prio run)
    Call.resort_prio owner

def rt_mut_wait (p_MCB : M) (timeout : Nat) : Rtk M S T Nat := do
  let v ← Call.get
  let run ← follow v.run
  if v.level p_MCB = 0 then
    Call.modify fun v => v.setMut p_MCB (u16 (v.level p_MCB + 1)) (some run) (v.prio run)
    return OS_R_OK
  else if v.owner p_MCB = some run then
    -- OK, running task is the owner of this mutex.
    Call.modify fun v => v.setLevel p_MCB (u16 (v.level p_MCB + 1))
    return OS_R_OK
  else if timeout = 0 then
    return OS_R_TMO
  else
    -- This priority inversion is called priority inheritance.
    rt_mut_wait.inherit p_MCB run
    enqueue (.mucb p_MCB) run
    rt_block timeout .WAIT_MUT
    return OS_R_TMO

def rt_mut_release (p_MCB : M) : Rtk M S T Nat := do
  let v ← Call.get
  let run ← follow v.run
  if v.level p_MCB = 0 ∨ v.owner p_MCB ≠ some run then
    -- Unbalanced mutex release or task is not the owner
    return OS_R_NOK
  else
    Call.modify fun v => v.setLevel p_MCB (v.level p_MCB - 1)
    if v.level p_MCB - 1 ≠ 0 then
      return OS_R_OK
    else
      -- Restore owner task's priority.
      Call.modify fun v => v.setPrio run (v.mut_prio p_MCB)
      let first ← Call.lnk (.mucb p_MCB)
      if first.isSome then
        -- A task is waiting for mutex.
        let p_TCB ← Call.get_first (.mucb p_MCB)
        Call.modify fun v => v.setRet p_TCB osOK
        Call.rmv_dly p_TCB
        -- A waiting task becomes the owner of this mutex.
        Call.modify fun v => v.setMut p_MCB 1 (some p_TCB) (v.prio p_TCB)
        let v ← Call.get
        let rdy ← rt_rdy_prio
        if v.prio run ≥ rdy then
          rt_dispatch (some p_TCB)
        else
          -- Ready task has higher priority than running task.
          Call.put_prio .rdy run
          Call.put_prio .rdy p_TCB
          Call.modify fun v => (v.setState run .READY).setState p_TCB .READY
          rt_dispatch none
      else
        -- Check if own priority raised by priority inversion.
        let v ← Call.get
        let rdy ← rt_rdy_prio
        if rdy > v.prio run then
          rt_preempt run
      return OS_R_OK

/-! ## Events -/

def rt_evt_wait (wait_flags : BitVec 16) (timeout : Nat) (and_wait : Bool) : Rtk M S T Nat := do
  let v ← Call.get
  let run ← follow v.run
  if and_wait then
    -- Check for AND-connected events
    if v.events run &&& wait_flags = wait_flags then
      Call.modify fun v => v.setEvents run (v.events run &&& ~~~wait_flags)
      return OS_R_EVT
    else
      Call.modify fun v => v.setWaits run wait_flags
      rt_block timeout .WAIT_AND
      return OS_R_TMO
  else
    -- Check for OR-connected events
    if v.events run &&& wait_flags ≠ 0 then
      Call.modify fun v => (v.setWaits run (v.events run &&& wait_flags)).setEvents run
        (v.events run &&& ~~~wait_flags)
      return OS_R_EVT
    else
      Call.modify fun v => v.setWaits run wait_flags
      rt_block timeout .WAIT_OR
      return OS_R_TMO

/-- Whether the events of a task are what it waits for, by the kind of wait. -/
def Vars.satisfied (v : Vars M S T) (t : T) : Bool :=
  match v.state t with
  | .WAIT_AND => v.events t &&& v.waits t = v.waits t
  | .WAIT_OR => v.events t &&& v.waits t ≠ 0
  | _ => false

/-- The label `wkup` of `rt_evt_set`, and `rdy` of `rt_evt_psh`: the task has what it waits for. -/
def Vars.wakeUp (v : Vars M S T) (t : T) : Vars M S T :=
  let event_flags := v.waits t
  { v with
    waits := if v.state t = .WAIT_OR then Function.update v.waits t (v.waits t &&& v.events t) else v.waits
    events := Function.update v.events t (v.events t &&& ~~~event_flags) }

def rt_evt_set (event_flags : BitVec 16) (task_id : Nat) : Rtk M S T Unit := do
  let v ← Call.get
  match v.os_active_TCB (task_id - 1) with
  | none => pure ()
  | some p_tcb => do
    Call.modify fun v => v.setEvents p_tcb (v.events p_tcb ||| event_flags)
    let v ← Call.get
    if v.satisfied p_tcb then
      Call.modify fun v => v.wakeUp p_tcb
      Call.rmv_dly p_tcb
      Call.modify fun v => (v.setState p_tcb .READY).setRet p_tcb osEventSignal
      rt_dispatch (some p_tcb)

def rt_evt_clr (clear_flags : BitVec 16) (task_id : Nat) : Rtk M S T Unit := do
  let v ← Call.get
  match v.os_active_TCB (task_id - 1) with
  | none => pure ()
  | some task => Call.modify fun v => v.setEvents task (v.events task &&& ~~~clear_flags)

/-- `rt_evt_psh`: the same for a request of an interrupt, the running task being in the ready list. -/
def rt_evt_psh (p_CB : T) (set_flags : BitVec 16) : Rtk M S T Unit := do
  Call.modify fun v => v.setEvents p_CB (v.events p_CB ||| set_flags)
  let v ← Call.get
  if v.satisfied p_CB then
    Call.modify fun v => v.wakeUp p_CB
    Call.rmv_dly p_CB
    Call.modify fun v => (v.setState p_CB .READY).setRet p_CB osEventSignal
    Call.put_prio .rdy p_CB

/-! ## Semaphores -/

def rt_sem_send (p_SCB : S) : Rtk M S T Nat := do
  let first ← Call.lnk (.scb p_SCB)
  if first.isSome then
    let p_TCB ← Call.get_first (.scb p_SCB)
    Call.modify fun v => v.setRet p_TCB 1
    Call.rmv_dly p_TCB
    rt_dispatch (some p_TCB)
  else
    Call.modify fun v => v.setTokens p_SCB (u16 (v.tokens p_SCB + 1))
  return OS_R_OK

def rt_sem_wait (p_SCB : S) (timeout : Nat) : Rtk M S T Nat := do
  let v ← Call.get
  if v.tokens p_SCB ≠ 0 then
    Call.modify fun v => v.setTokens p_SCB (v.tokens p_SCB - 1)
    return OS_R_OK
  else if timeout = 0 then
    return OS_R_TMO
  else
    let run ← follow v.run
    enqueue (.scb p_SCB) run
    rt_block timeout .WAIT_SEM
    return OS_R_TMO

def rt_sem_psh (p_CB : S) : Rtk M S T Unit := do
  let first ← Call.lnk (.scb p_CB)
  if first.isSome then
    let p_TCB ← Call.get_first (.scb p_CB)
    Call.rmv_dly p_TCB
    Call.modify fun v => (v.setState p_TCB .READY).setRet p_TCB 1
    Call.put_prio .rdy p_TCB
  else
    Call.modify fun v => v.setTokens p_CB (u16 (v.tokens p_CB + 1))

/-! ## Requests of interrupts -/

/-- The next index of the queue. -/
def psq_next (i : Nat) : Nat := if i + 1 = os_fifo_size then 0 else i + 1

def rt_psq_enq (entry : T ⊕ S) (arg : BitVec 16) : Rtk M S T Unit := do
  let v ← Call.get
  if v.psq_count = os_fifo_size then
    fault .fifo_ovf
  else
    Call.modify fun v =>
      { v with
        psq_count := v.psq_count + 1
        psq_first := psq_next v.psq_first
        psq_id := Function.update v.psq_id v.psq_first (some entry)
        psq_arg := Function.update v.psq_arg v.psq_first arg }

def isr_evt_set (event_flags : BitVec 16) (task_id : Nat) : Rtk M S T Unit := do
  let v ← Call.get
  match v.os_active_TCB (task_id - 1) with
  | none => pure ()
  | some p_tcb => rt_psq_enq (.inl p_tcb) event_flags

def isr_sem_send (p_SCB : S) : Rtk M S T Unit := rt_psq_enq (.inr p_SCB) 0

/-- `rt_pop_req` before its loop: the task interrupted is ready, the first of all. -/
def rt_pop_req.enter : Rtk M S T Nat := do
  let run ← running
  Call.modify fun v => v.setState run .READY
  Call.put_rdy_first run
  let v ← Call.get
  return v.psq_last

/-- One round of the loop. -/
def rt_pop_req.serve (idx : Nat) : Rtk M S T Unit := do
  let v ← Call.get
  let p_CB ← follow (v.psq_id idx)
  match p_CB with
  | .inl t => rt_evt_psh t (v.psq_arg idx)
  | .inr s => rt_sem_psh s
  Call.modify fun v => { v with psq_count := v.psq_count - 1 }

/-- The `while` of `rt_pop_req`. -/
def rt_pop_req.loop : Nat → Nat → Rtk M S T Nat
  | 0, _ => fault .fuel
  | n + 1, idx => do
    let v ← Call.get
    if v.psq_count = 0 then
      return idx
    else
      rt_pop_req.serve idx
      loop n (psq_next idx)

/-- `rt_pop_req` behind its loop. -/
def rt_pop_req.leave (idx : Nat) : Rtk M S T Unit := do
  Call.modify fun v => { v with psq_last := idx }
  let next ← Call.get_first .rdy
  rt_switch_req next

def rt_pop_req : Rtk M S T Unit := do
  let idx ← rt_pop_req.enter
  let idx ← rt_pop_req.loop (os_fifo_size + 1) idx
  rt_pop_req.leave idx

/-! ## The tick -/

def rt_chk_robin : Rtk M S T Unit := do
  let first ← Call.lnk .rdy
  let v ← Call.get
  if v.robin_task ≠ first then
    -- New task was suspended, reset Round Robin timeout.
    Call.modify fun v =>
      { v with robin_task := first, robin_time := u16 (u16 v.os_time + v.robin_tout + 65535) }
  let v ← Call.get
  if v.robin_time = u16 v.os_time then
    -- Round Robin timeout has expired, swap Robin tasks.
    Call.modify fun v => { v with robin_task := none }
    let p_new ← Call.get_first .rdy
    Call.put_prio .rdy p_new

def rt_systick : Rtk M S T Unit := do
  let run ← running
  Call.modify fun v => v.setState run .READY
  Call.put_rdy_first run
  rt_chk_robin
  Call.modify fun v => { v with os_time := u32 (v.os_time + 1) }
  Call.dec_dly
  let next ← Call.get_first .rdy
  rt_switch_req next

/-! ## Service calls -/

/-- `osWaitForever`. -/
def osWaitForever : Nat := 0xFFFFFFFF

/-- `OS_TICK`: microseconds in a tick. -/
def os_clockrate : Nat := 1000

def rt_ms2tick (millisec : Nat) : Nat :=
  if millisec = osWaitForever then 0xFFFF
  else if millisec > 4000000 then 0xFFFE
  else
    let tick := u32 (u32 (1000 * millisec) + os_clockrate - 1) / os_clockrate
    if tick > 0xFFFE then 0xFFFE else tick

def svcMutexWait (m : M) (millisec : Nat) : Rtk M S T Nat := do
  let res ← rt_mut_wait m (rt_ms2tick millisec)
  if res = OS_R_TMO then
    return if millisec = 0 then osErrorResource else osErrorTimeoutResource
  else
    return osOK

def svcMutexRelease (m : M) : Rtk M S T Nat := do
  let res ← rt_mut_release m
  return if res = OS_R_NOK then osErrorResource else osOK

/-- `svcSignalWait`: for all the signals named, or, where none is named, for any. -/
def svcSignalWait (signals : BitVec 16) (millisec : Nat) : Rtk M S T Nat := do
  let res ← if signals ≠ 0 then rt_evt_wait signals (rt_ms2tick millisec) true
    else rt_evt_wait 0xFFFF (rt_ms2tick millisec) false
  if res = OS_R_EVT then
    return osEventSignal
  else
    return if millisec = 0 then osOK else osEventTimeout

def svcSignalSet (thread_id : T) (signals : BitVec 16) : Rtk M S T Nat := do
  let v ← Call.get
  if v.is_tcb thread_id then
    rt_evt_set signals (v.task_id thread_id)
    return (v.events thread_id).toNat
  else
    return 0x80000000

def svcSignalClear (thread_id : T) (signals : BitVec 16) : Rtk M S T Nat := do
  let v ← Call.get
  if v.is_tcb thread_id then
    rt_evt_clr signals (v.task_id thread_id)
    return (v.events thread_id).toNat
  else
    return 0x80000000

def svcSemaphoreWait (s : S) (millisec : Nat) : Rtk M S T Nat := do
  let res ← rt_sem_wait s (rt_ms2tick millisec)
  if res = OS_R_TMO then
    return 0
  else
    let v ← Call.get
    return v.tokens s + 1

def svcSemaphoreRelease (s : S) : Rtk M S T Nat := do
  let v ← Call.get
  if v.tokens s = 0xFFFF then
    return osErrorResource
  else
    let _ ← rt_sem_send s
    return osOK

def svcDelay (millisec : Nat) : Rtk M S T Nat :=
  if millisec = 0 then return osOK
  else do
    rt_block (rt_ms2tick millisec) .WAIT_DLY
    return osEventTimeout

def svcThreadYield : Rtk M S T Nat := do
  rt_tsk_pass
  return osOK

/-- `svcThreadCreate`; `tpriority` is counted from `osPriorityNormal`. -/
def svcThreadCreate (thread : T) (tpriority : Int) : Rtk M S T Nat :=
  if tpriority < -3 ∨ tpriority > 3 then return 0
  else do
    rt_init_context thread (tpriority + 4).toNat
    let v ← Call.get
    let tsk := rt_get_TID v
    if tsk = 0 then
      fault .no_slot
    else
      Call.modify fun v =>
        { v.setActive (tsk - 1) (some thread) with task_id := Function.update v.task_id thread tsk }
      rt_dispatch (some thread)
      return 1

def svcThreadTerminate (thread_id : T) : Rtk M S T Nat := do
  let v ← Call.get
  if v.is_tcb thread_id then
    let res ← rt_tsk_delete (v.task_id thread_id)
    return if res = OS_R_NOK then osErrorResource else osOK
  else
    return osErrorParameter

def svcThreadSetPriority (thread_id : T) (priority : Int) : Rtk M S T Nat := do
  let v ← Call.get
  if v.is_tcb thread_id then
    if priority < -3 ∨ priority > 3 then
      return osErrorValue
    else
      let res ← rt_tsk_prio (v.task_id thread_id) (priority + 4).toNat
      return if res = OS_R_NOK then osErrorResource else osOK
  else
    return osErrorParameter

/-- `isrSignalSet`, but for what it returns. -/
def isrSignalSet (thread_id : T) (signals : BitVec 16) : Rtk M S T Unit := do
  let v ← Call.get
  if v.is_tcb thread_id then
    isr_evt_set signals (v.task_id thread_id)

/-- `isrSemaphoreRelease`, but for what it returns. -/
def isrSemaphoreRelease (s : S) : Rtk M S T Unit := do
  let v ← Call.get
  if v.tokens s ≠ 0xFFFF then
    isr_sem_send s

/-! ## Handlers -/

/-- The end of a handler: the task chosen runs. -/
def Sys_Switch : Rtk M S T Unit := Call.modify fun v => { v with run := v.new_tsk }

/-- `SVC_Handler`: the result goes to the task that has made the call. -/
def svc (f : Rtk M S T Nat) : Rtk M S T Unit := do
  let caller ← running
  let r ← f
  Call.modify fun v => v.setRet caller r
  Sys_Switch

/-! ## Start -/

/-- `rt_sys_init`, the lists being empty as the memory is cleared. -/
def rt_sys_init (os_idle_TCB : T) : Rtk M S T Unit := do
  Call.modify fun v =>
    { v with
      os_active_TCB := fun _ => none
      task_id := Function.update v.task_id os_idle_TCB idle_id }
  rt_init_context os_idle_TCB 0
  Call.modify fun v =>
    { v.setState os_idle_TCB .RUNNING with
      run := some os_idle_TCB
      psq_first := 0
      psq_last := 0
      robin_task := none
      robin_tout := u16 os_rrobin }

def svcKernelInitialize (os_idle_TCB : T) : Rtk M S T Unit := do
  rt_sys_init os_idle_TCB
  Call.modify fun v => v.setPrio os_idle_TCB 255

def svcKernelStart : Rtk M S T Unit := do
  let _ ← rt_tsk_prio 0 0
  Call.modify fun v => { v with run := none }

/-- From reset to the first thread: the threads are created, the first of them `main`. -/
def boot (os_idle_TCB : T) (threads : List (T × Int)) : Rtk M S T Unit := do
  svcKernelInitialize os_idle_TCB
  threads.forM fun p => do
    let _ ← svcThreadCreate p.1 p.2
  svcKernelStart
  Sys_Switch

end Expedition.Rtx
