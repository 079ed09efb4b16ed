import Expedition.Host.Code
import Mathlib.Logic.Function.Basic

/-!
# The loops at work, memory access by memory access

The interrupt handler, `dispatch_loop` and the three worker loops around the target's memory, with
every memory access, signal operation, lock operation and access to a shared variable one step.

* Signals are latched flags of a thread: `signal_wait` returns when the flag is set and clears it.
* The `log` records, newest first, what the host did: its memory accesses, its signals, the calls
  and returns of the services, what went in and out, and every pulse of `ack_intr` with what the
  chip finds in ACK_TYPE, ACK_RETURN_VAL and READBUF at that moment.  `iter` counts the wake-ups of
  a thread, so that the log says in which round of its loop a thread did something.
* The chip acts on the memory and on the interrupt line (`ChipAct`); which of its actions are taken
  when is left to the modules that follow.  Here it may do anything (`anyChip`).

The handler's first run resets the port and powers it up, which changes no word of the memory.
-/

namespace Expedition

inductive Event where
  | read (t : Thread) (a v : Word)
  | write (t : Thread) (iter : Nat) (a v : Word)
  | signal (t u : Thread)
  | call (k : Thread) (svc : Service) (arg : Word)
  | ret (t : Thread) (iter : Nat) (o : Outcome)
  | outside (t : Thread) (c : Outside) (ans : Answer)
  | pulse (t : Thread) (iter : Nat) (ackType ackRet : Word) (readbuf : List Word)
  deriving DecidableEq, Repr

/-- The state the threads share. -/
structure Shared where
  mem : Word → Word
  flag : Thread → Bool
  glob : Global → Word
  mutex : Lock → Mutex Thread
  /-- A rising edge of `ack_intr` the chip has not taken yet. -/
  ackPending : Bool
  iter : Thread → Nat
  log : List Event

/-- The words of READBUF. -/
def readbuf (mem : Word → Word) : List Word := (List.range BUF_WORDS).map fun i => mem (readbufAddr i)

/-- The words of WRITEBUF. -/
def writebuf (mem : Word → Word) : List Word :=
  (List.range BUF_WORDS).map fun i => mem (writebufAddr i)

/-- One action of thread `t`; `ans` is what a call to the outside answers. -/
def Instr.exec {P : Type} (t : Thread) (ans : Answer) (s : Shared) : Instr P → Option (Shared × P)
  | .signal_wait next =>
    if s.flag t then
      some ({ s with flag := Function.update s.flag t false,
                     iter := Function.update s.iter t (s.iter t + 1) }, next)
    else none
  | .signal_set u next =>
    some ({ s with flag := Function.update s.flag u true, log := .signal t u :: s.log }, next)
  | .lock m next =>
    ((s.mutex m).lock t).map fun l => ({ s with mutex := Function.update s.mutex m l }, next)
  | .unlock m next =>
    some ({ s with mutex := Function.update s.mutex m ((s.mutex m).unlock t) }, next)
  | .readMemory a next => some ({ s with log := .read t a (s.mem a) :: s.log }, next (s.mem a))
  | .writeMemory a v next =>
    some ({ s with mem := Function.update s.mem a v, log := .write t (s.iter t) a v :: s.log }, next)
  | .load g next => some (s, next (s.glob g))
  | .store g v next => some ({ s with glob := Function.update s.glob g v }, next)
  | .ack_intr true next =>
    some ({ s with ackPending := true,
                   log := .pulse t (s.iter t) (s.mem ACK_TYPE) (s.mem ACK_RETURN_VAL)
                     (readbuf s.mem) :: s.log }, next)
  | .ack_intr false next => some (s, next)
  | .call svc arg next => some ({ s with log := .call t svc arg :: s.log }, next)
  | .ret o next => some ({ s with log := .ret t (s.iter t) o :: s.log }, next)
  | .outside c next => some ({ s with log := .outside t c ans :: s.log }, next ans)
  -- the threads run here do none of these
  | .scans _ _ | .reset _ | .terminate _ _ | .panic _ | .power_down _ | .done => none

/-- The threads and the interrupt handler. -/
structure Host where
  shared : Shared
  dispatch : DispatchPc
  work : Worker → WorkPc
  /-- An edge of `req_intr` whose handler has not run. -/
  irq : Bool

inductive HostAct where
  /-- `req_intr_handler` -/
  | handler
  | dispatch (ans : Answer)
  | work (k : Worker) (ans : Answer)
  deriving DecidableEq, Repr

namespace Host

def withShared (h : Host) (s : Shared) : Host := { h with shared := s }

/-- One step of the host. -/
def step : HostAct → Host → Option Host
  | .handler, h =>
    if h.irq then
      some { h with irq := false,
                    shared := { h.shared with flag := Function.update h.shared.flag .dispatch true } }
    else none
  | .dispatch ans, h =>
    (h.dispatch.code.exec .dispatch ans h.shared).map fun (s, p) =>
      { h with shared := s, dispatch := p }
  | .work k ans, h =>
    (((h.work k).code k).exec (.work k) ans h.shared).map fun (s, p) =>
      { h with shared := s, work := Function.update h.work k p }

/-- The host as it comes up: every thread in its first `signal_wait`, the request variables zero. -/
structure Fresh (h : Host) : Prop where
  flag : ∀ t, h.shared.flag t = false
  glob : ∀ k : Worker, h.shared.glob k.typeVar = 0
  mutex : ∀ m, h.shared.mutex m = none
  ackPending : h.shared.ackPending = false
  log : h.shared.log = []
  dispatch : h.dispatch = .wait
  work : ∀ k, h.work k = .wait
  irq : h.irq = false

end Host

/-- The host as it comes up, with the given links open and the given memory. -/
def Host.fresh (mem : Word → Word) (ethernet wireless : Bool) : Host where
  shared :=
    { mem := mem, flag := fun _ => false
      glob := fun g => match g with
        | .ethernet_open => if ethernet then 1 else 0
        | .wireless_open => if wireless then 1 else 0
        | _ => 0
      mutex := fun _ => none, ackPending := false, iter := fun _ => 0, log := [] }
  dispatch := .wait
  work := fun _ => .wait
  irq := false

theorem Host.fresh_fresh (mem : Word → Word) (ethernet wireless : Bool) :
    (Host.fresh mem ethernet wireless).Fresh := by
  refine ⟨fun _ => rfl, fun k => ?_, fun _ => rfl, rfl, rfl, rfl, fun _ => rfl, rfl⟩
  cases k <;> rfl

def Answer.empty : Answer := ⟨0, none⟩

/-- What a chip can do to the host: write a word, raise the request line, take the acknowledge. -/
inductive ChipAct where
  | write (a v : Word)
  | edge
  | takeAck
  deriving DecidableEq, Repr

def ChipAct.apply : ChipAct → Host → Host
  | write a v, h => { h with shared := { h.shared with mem := Function.update h.shared.mem a v } }
  | edge, h => { h with irq := true }
  | takeAck, h => { h with shared := { h.shared with ackPending := false } }

@[simp] theorem ChipAct.write_mem_self (a v : Word) (h : Host) :
    ((write a v).apply h).shared.mem a = v := by
  simp [apply]

theorem ChipAct.write_mem_ne {a b : Word} (v : Word) (h : Host) (hne : b ≠ a) :
    ((write a v).apply h).shared.mem b = h.shared.mem b := by
  simp [apply, hne]

/-- The host with a chip that may do anything at any time. -/
def anyChip : Machine Host (HostAct ⊕ ChipAct) where
  start := Host.Fresh
  step
    | .inl a, h => h.step a
    | .inr c, h => some (c.apply h)

end Expedition
