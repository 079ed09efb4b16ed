import Mathlib.Data.Fintype.Card
import Mathlib.Logic.Function.Basic
import Expedition.Lib.Exec

/-!
# The kernel's lists (`rt_List.c`)

The variables of the RTX kernel and the functions that edit its lists, pointer by pointer.  Tasks `T`,
mutexes `M` and semaphores `S` stand for the addresses of their control blocks.

* `XCB` — what a link of the ready list or of a waiting list hangs on: a list header or a task;
  `DCB` is the same for the delay list.
* `Vars` — the variables that are no links; `Kernel` — the links and these.
* `rt_put_prio` … `rt_rmv_dly` — the functions of the source.  A `while` over a list is a recursion with
  one unit of fuel for each task there is and one more, and a NULL pointer that is followed is a
  `Fault`.
-/

namespace Expedition.Rtx

open Exec

/-- `state` of a task. -/
inductive TaskState where
  | INACTIVE | READY | RUNNING | WAIT_DLY | WAIT_ITV | WAIT_OR | WAIT_AND | WAIT_SEM | WAIT_MBX | WAIT_MUT
  deriving DecidableEq, Repr

/-- Where a list chained by `p_lnk` starts: `os_rdy`, or the control block of a mutex or a semaphore. -/
inductive Head (M S : Type) where
  | rdy
  | mucb (m : M)
  | scb (s : S)
  deriving DecidableEq, Repr

/-- What `p_lnk` is a field of: a header or a task. -/
inductive XCB (M S T : Type) where
  | head (h : Head M S)
  | tcb (t : T)
  deriving DecidableEq, Repr

/-- What `p_dlnk` is a field of: `os_dly` or a task. -/
inductive DCB (T : Type) where
  | os_dly
  | tcb (t : T)
  deriving DecidableEq, Repr

/-- The test of the control block type: semaphores and mutexes chain their tasks both ways. -/
def Head.sem_mbx {M S : Type} : Head M S → Bool
  | .rdy => false
  | .mucb _ => true
  | .scb _ => true

/-- The variables of the kernel that are no links. -/
structure Vars (M S T : Type) where
  prio : T → Nat
  state : T → TaskState
  interval_time : T → Nat
  events : T → BitVec 16
  waits : T → BitVec 16
  task_id : T → Nat
  /-- The control block has been set up: `cb_type` is `TCB`. -/
  is_tcb : T → Bool
  /-- What the task finds as the result of the call it has made. -/
  ret : T → Nat
  os_active_TCB : Nat → Option T
  /-- `prio` of a mutex: the priority its owner had. -/
  mut_prio : M → Nat
  level : M → Nat
  owner : M → Option T
  tokens : S → Nat
  os_time : Nat
  robin_task : Option T
  robin_time : Nat
  robin_tout : Nat
  run : Option T
  new_tsk : Option T
  psq_first : Nat
  psq_last : Nat
  psq_count : Nat
  psq_id : Nat → Option (T ⊕ S)
  psq_arg : Nat → BitVec 16

/-- Set `state` of a task. -/
def Vars.setState {M S T : Type} [DecidableEq T] (v : Vars M S T) (t : T) (s : TaskState) : Vars M S T :=
  { v with state := Function.update v.state t s }

/-- The links of all control blocks, and the other variables. -/
structure Kernel (M S T : Type) where
  p_lnk : XCB M S T → Option T
  p_rlnk : T → Option (XCB M S T)
  p_dlnk : DCB T → Option T
  p_blnk : T → Option (DCB T)
  delta_time : DCB T → Nat
  vars : Vars M S T

/-- What stops the kernel. -/
inductive Fault where
  | null_deref
  | fuel
  | fifo_ovf
  | no_slot
  | no_task
  deriving DecidableEq, Repr

/-- `(U16)n`. -/
def u16 (n : Nat) : Nat := n % 65536

/-- `(U32)n`. -/
def u32 (n : Nat) : Nat := n % 4294967296

variable {M S T : Type} [DecidableEq M] [DecidableEq S] [DecidableEq T]

abbrev Rt (M S T α : Type) := Exec (Kernel M S T) Fault α

/-- Follow a pointer. -/
def deref {σ α : Type} : Option α → Exec σ Fault α
  | some a => pure a
  | none => fail .null_deref

@[simp] theorem deref_some {σ α : Type} (a : α) (s : σ) : deref (some a) s = (.ok a, s) := rfl

def setLnk (n : XCB M S T) (v : Option T) : Rt M S T Unit :=
  update fun k => { k with p_lnk := Function.update k.p_lnk n v }

def setRlnk (t : T) (v : Option (XCB M S T)) : Rt M S T Unit :=
  update fun k => { k with p_rlnk := Function.update k.p_rlnk t v }

def setDlnk (n : DCB T) (v : Option T) : Rt M S T Unit :=
  update fun k => { k with p_dlnk := Function.update k.p_dlnk n v }

def setBlnk (t : T) (v : Option (DCB T)) : Rt M S T Unit :=
  update fun k => { k with p_blnk := Function.update k.p_blnk t v }

def setDelta (n : DCB T) (v : Nat) : Rt M S T Unit :=
  update fun k => { k with delta_time := Function.update k.delta_time n v }

variable [Fintype T]

/-- One unit of fuel for each node of the longest list. -/
def listFuel (T : Type) [Fintype T] : Nat := Fintype.card T + 1

/-! ## The ready list and the waiting lists -/

/-- The `while` of `rt_put_prio`: the node behind which a task of priority `prio` goes. -/
def rt_put_prio.search (prio : Nat) : Nat → XCB M S T → Rt M S T (XCB M S T)
  | 0, _ => fail .fuel
  | n + 1, p_CB => do
    let k ← read
    match k.p_lnk p_CB with
    | some p_CB2 => if prio ≤ k.vars.prio p_CB2 then search prio n (.tcb p_CB2) else pure p_CB
    | none => pure p_CB

def rt_put_prio (p_CB : Head M S) (p_task : T) : Rt M S T Unit := do
  let k ← read
  let p ← rt_put_prio.search (k.vars.prio p_task) (listFuel T) (.head p_CB)
  let p_CB2 := k.p_lnk p
  setLnk (.tcb p_task) p_CB2
  setLnk p (some p_task)
  if p_CB.sem_mbx then
    match p_CB2 with
    | some q => setRlnk q (some (.tcb p_task))
    | none => pure ()
    setRlnk p_task (some p)
  else
    setRlnk p_task none

def rt_get_first (p_CB : Head M S) : Rt M S T T := do
  let k ← read
  let p_first ← deref (k.p_lnk (.head p_CB))
  let p_next := k.p_lnk (.tcb p_first)
  setLnk (.head p_CB) p_next
  if p_CB.sem_mbx then
    match p_next with
    | some q => do
      setRlnk q (some (.head p_CB))
      setLnk (.tcb p_first) none
    | none => pure ()
    setRlnk p_first none
  else
    setLnk (.tcb p_first) none
  return p_first

def rt_put_rdy_first (p_task : T) : Rt M S T Unit := do
  let k ← read
  setLnk (.tcb p_task) (k.p_lnk (.head .rdy))
  setRlnk p_task none
  setLnk (.head .rdy) (some p_task)

def rt_get_same_rdy_prio : Rt M S T (Option T) := do
  let k ← read
  let p_first ← deref (k.p_lnk (.head .rdy))
  let run ← deref k.vars.run
  if k.vars.prio p_first = k.vars.prio run then
    setLnk (.head .rdy) (k.p_lnk (.tcb p_first))
    return some p_first
  else
    return none

/-- The loop of `rt_rmv_list` over the ready list. -/
def rt_rmv_list.search (p_task : T) : Nat → XCB M S T → Rt M S T Unit
  | 0, _ => fail .fuel
  | n + 1, p_b => do
    let k ← read
    if k.p_lnk p_b = some p_task then
      setLnk p_b (k.p_lnk (.tcb p_task))
    else
      match k.p_lnk p_b with
      | some q => search p_task n (.tcb q)
      | none => pure ()

def rt_rmv_list (p_task : T) : Rt M S T Unit := do
  let k ← read
  match k.p_rlnk p_task with
  | some p_b => do
    setLnk p_b (k.p_lnk (.tcb p_task))
    match k.p_lnk (.tcb p_task) with
    | some q => setRlnk q (some p_b)
    | none => pure ()
  | none => rt_rmv_list.search p_task (listFuel T) (.head .rdy)

/-- The loop of `rt_resort_prio`: the header of the list a link belongs to. -/
def rt_resort_prio.header : Nat → XCB M S T → Rt M S T (Head M S)
  | 0, _ => fail .fuel
  | _ + 1, .head h => pure h
  | n + 1, .tcb t => do
    let k ← read
    let p ← deref (k.p_rlnk t)
    header n p

def rt_resort_prio (p_task : T) : Rt M S T Unit := do
  let k ← read
  match k.p_rlnk p_task with
  | none =>
    if k.vars.state p_task = .READY then do
      rt_rmv_list p_task
      rt_put_prio .rdy p_task
    else pure ()
  | some p_CB => do
    let h ← rt_resort_prio.header (listFuel T) p_CB
    rt_rmv_list p_task
    rt_put_prio h p_task

/-- What `rt_mut_wait` and `rt_sem_wait` do where nobody waits yet. -/
def put_only (p_CB : Head M S) (p_task : T) : Rt M S T Unit := do
  setLnk (.head p_CB) (some p_task)
  setLnk (.tcb p_task) none
  setRlnk p_task (some (.head p_CB))

/-! ## The delay list -/

/-- The `while` of `rt_put_dly`: where to go in, the time up to there, and whether that is the end. -/
def rt_put_dly.search (idelay : Nat) : Nat → DCB T → Nat → Rt M S T (DCB T × Nat × Bool)
  | 0, _, _ => fail .fuel
  | n + 1, p, delta => do
    let k ← read
    if delta < idelay then
      match k.p_dlnk p with
      | none => pure (p, delta, true)
      | some q => search idelay n (.tcb q) (u32 (delta + k.delta_time (.tcb q)))
    else
      pure (p, delta, false)

/-- The way to the place: the list may be empty. -/
def rt_put_dly.place (idelay : Nat) : Rt M S T (DCB T × Nat × Bool) := do
  let k ← read
  if k.p_dlnk .os_dly = none then pure (.os_dly, 0, true)
  else rt_put_dly.search idelay (listFuel T) .os_dly (k.delta_time .os_dly)

def rt_put_dly (p_task : T) (delay : Nat) : Rt M S T Unit := do
  let k ← read
  let r ← rt_put_dly.place delay
  let p := r.1
  let delta := r.2.1
  if r.2.2 then
    setDlnk (.tcb p_task) none
    setDlnk p (some p_task)
    setBlnk p_task (some p)
    setDelta p (u16 (delay - delta))
    setDelta (.tcb p_task) 0
  else
    setDlnk (.tcb p_task) (k.p_dlnk p)
    setDlnk p (some p_task)
    setBlnk p_task (some p)
    match k.p_dlnk p with
    | some q => setBlnk q (some (.tcb p_task))
    | none => pure ()
    setDelta (.tcb p_task) (u16 (delta - delay))
    setDelta p (u16 (k.delta_time p + 65536 - u16 (delta - delay)))

/-- The end of a wait in `rt_dec_dly`: out of the waiting list, if it is in one. -/
def rt_dec_dly.unwait (p_rdy : T) : Rt M S T Unit := do
  let k ← read
  match k.p_rlnk p_rdy with
  | some p_b => do
    setLnk p_b (k.p_lnk (.tcb p_rdy))
    match k.p_lnk (.tcb p_rdy) with
    | some q => do
      setRlnk q (some p_b)
      setLnk (.tcb p_rdy) none
    | none => pure ()
    setRlnk p_rdy none
  | none => pure ()

/-- The `while` of `rt_dec_dly`: make ready the tasks whose time has come. -/
def rt_dec_dly.release : Nat → Rt M S T Unit
  | 0 => fail .fuel
  | n + 1 => do
    let k ← read
    match k.p_dlnk .os_dly with
    | none => pure ()
    | some p_rdy =>
      if k.delta_time .os_dly = 0 then do
        rt_dec_dly.unwait p_rdy
        rt_put_prio .rdy p_rdy
        setDelta .os_dly (k.delta_time (.tcb p_rdy))
        if k.vars.state p_rdy = .WAIT_ITV then
          setDelta (.tcb p_rdy) (u16 (k.vars.interval_time p_rdy + u16 k.vars.os_time))
        update fun k => { k with vars := k.vars.setState p_rdy .READY }
        setDlnk .os_dly (k.p_dlnk (.tcb p_rdy))
        match k.p_dlnk (.tcb p_rdy) with
        | some q => do
          setBlnk q (some .os_dly)
          setDlnk (.tcb p_rdy) none
        | none => pure ()
        setBlnk p_rdy none
        release n
      else pure ()

def rt_dec_dly : Rt M S T Unit := do
  let k ← read
  if k.p_dlnk .os_dly = none then pure ()
  else do
    setDelta .os_dly (u16 (k.delta_time .os_dly + 65535))
    rt_dec_dly.release (listFuel T)

def rt_rmv_dly (p_task : T) : Rt M S T Unit := do
  let k ← read
  match k.p_blnk p_task with
  | some p_b => do
    setDlnk p_b (k.p_dlnk (.tcb p_task))
    match k.p_dlnk (.tcb p_task) with
    | some q => do
      setDelta p_b (u16 (k.delta_time p_b + k.delta_time (.tcb p_task)))
      setBlnk q (some p_b)
      setDlnk (.tcb p_task) none
    | none => setDelta p_b 0
    setBlnk p_task none
  | none => pure ()

/-- The link fields `rt_init_context` sets. -/
def init_links (p_TCB : T) : Rt M S T Unit := do
  setLnk (.tcb p_TCB) none
  setRlnk p_TCB none
  setDlnk (.tcb p_TCB) none
  setBlnk p_TCB none
  setDelta (.tcb p_TCB) 0

end Expedition.Rtx
