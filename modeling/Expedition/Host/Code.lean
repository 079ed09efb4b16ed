import Expedition.Host.Codes
import Expedition.Dap.Calls
import Expedition.Lib.Machine

/-!
# The code of the threads

What each thread of `main.cpp` does next, as a program counter and the instruction there.  An
`Instr P` is one indivisible action of a thread with the program counter that follows; an action
that brings a value in (a memory read, a load of a global, an answer from outside) has one follower
for each value.  The functions the loops call (`term_printf`, `enet_recv`, `read_pow`,
`jtag_writebuffer`, ...) are written out in the program counters of their loop.

How an instruction acts is not fixed here: the modules that follow run the same code with memory
accesses as single steps, scan by scan, and for its locks only.
-/

namespace Expedition

/-- The threads of the program, and the interrupt handler, whose signal is the edge of `req_intr`. -/
inductive Thread where
  | main
  | dispatch
  | work (k : Worker)
  | debug
  | handler
  deriving DecidableEq, Repr

/-- `locks.h`. -/
inductive Lock where
  | term_write
  | term_read
  | JTAG
  | pow_sensr
  deriving DecidableEq, Repr

/-- The variables the threads share. -/
inductive Global where
  | data_send_type
  | data_recv_type
  | wireless_recv_size
  | enet_recv_size
  | req_gain_ctrl
  | ethernet_open
  | wireless_open
  deriving DecidableEq, Repr

/-- A call that leaves the program: a terminal, a socket, a sensor or the file system. -/
inductive Outside where
  /-- `term_sendbuffer` of a text. -/
  | print (text : String)
  /-- `term_sendbuffer` or `send_all` of the string in the service's buffer. -/
  | transmit (svc : Service) (buffer : List Byte)
  /-- `term_readbuffer`, `receive_all` or the measurement; the argument is the size or the gain. -/
  | receive (svc : Service) (arg : Word)
  /-- `fopen` or `term_readbuffer` for `main`. -/
  | readLine
  | power_core
  | resetCore
  deriving DecidableEq, Repr

/-- What such a call answers: a number, and bytes unless it failed. -/
structure Answer where
  ret : Word
  data : Option (List Byte)
  deriving DecidableEq, Repr

/-- How a service ended: its return value, and the reply it put in READBUF if it got one. -/
structure Outcome where
  svc : Service
  rtn : Word
  reply : Option (List Byte)
  deriving DecidableEq, Repr

/-- One action of a thread, and where it goes on. -/
inductive Instr (P : Type) where
  | signal_wait (next : P)
  | signal_set (u : Thread) (next : P)
  | lock (m : Lock) (next : P)
  | unlock (m : Lock) (next : P)
  | readMemory (a : Word) (next : Word → P)
  | writeMemory (a v : Word) (next : P)
  /-- Scans of a call that is neither of the two, one after the other, and the result of the last. -/
  | scans (l : List Scan) (next : Word → P)
  | reset (next : P)
  | load (g : Global) (next : Word → P)
  | store (g : Global) (v : Word) (next : P)
  | ack_intr (level : Bool) (next : P)
  /-- The call of a service with its argument, and its return. -/
  | call (svc : Service) (arg : Word) (next : P)
  | ret (o : Outcome) (next : P)
  | outside (c : Outside) (next : Answer → P)
  | terminate (u : Thread) (next : P)
  | panic (message : String)
  | power_down (next : P)
  | done

/-- `%08x`. -/
def hex08 (w : Word) : String :=
  String.ofList (List.replicate (8 - (hex w.toNat).length) '0') ++ hex w.toNat

/-! ## `dispatch_loop` -/

inductive DispatchPc where
  | wait
  | lock
  | readType
  | readVal (type : Word)
  | clear (type val : Word)
  | unlock (type val : Word)
  | storeType (svc : Service) (val : Word)
  | storeArg (svc : Service) (val : Word)
  | signal (svc : Service)
  | printLock (type : Word)
  | print (type : Word)
  | printUnlock
  deriving DecidableEq, Repr

/-- The type variable of a worker. -/
def Worker.typeVar : Worker → Global
  | .send => .data_send_type
  | .recv => .data_recv_type
  | .pow => .req_gain_ctrl

/-- The variable that hands the argument of a request over, for the services that have one. -/
def Service.argVar : Service → Option Global
  | .enet_recv => some .enet_recv_size
  | .wireless_recv => some .wireless_recv_size
  | .read_pow => some .req_gain_ctrl
  | _ => none

namespace DispatchPc

/-- The `switch`: where it goes for a request code. -/
def switch (type val : Word) : DispatchPc :=
  match requestService type with
  | some .read_pow => storeArg .read_pow val
  | some svc => storeType svc val
  | none => printLock type

def code : DispatchPc → Instr DispatchPc
  | wait => .signal_wait lock
  | lock => .lock .JTAG readType
  | readType => .readMemory IO_TYPE readVal
  | readVal type => .readMemory READBUF_BEGIN (clear type)
  | clear type val => .writeMemory IO_TYPE EMPTY_REQ (unlock type val)
  | unlock type val => .unlock .JTAG (switch type val)
  | storeType svc val =>
    .store svc.worker.typeVar svc.typeCode (if svc.argVar.isSome then storeArg svc val else signal svc)
  | storeArg svc val => .store (svc.argVar.getD .req_gain_ctrl) val (signal svc)
  | signal svc => .signal_set (.work svc.worker) wait
  | printLock type => .lock .term_write (print type)
  | print type =>
    .outside (.print ("Unsupported request: " ++ hex08 type ++ "\r\n")) fun _ => printUnlock
  | printUnlock => .unlock .term_write wait

end DispatchPc

/-! ## The worker loops and their services -/

inductive WorkPc where
  | wait
  /-- At the `switch` over the type variable; `read_pow_loop` loads its argument instead. -/
  | switch
  /-- At the load of the size argument. -/
  | size (svc : Service)
  | enter (svc : Service) (arg : Word)
  /-- At the test of `ethernet_open` or `wireless_open`. -/
  | isOpen (svc : Service) (arg : Word)
  | outerLock (svc : Service) (arg : Word)
  /-- In `jtag_writebuffer`: `i` words read, `buf` collected. -/
  | wbLock (svc : Service)
  | wbRead (svc : Service) (i : Nat) (buf : List Byte)
  | wbUnlock (svc : Service) (buf : List Byte)
  | transmit (svc : Service) (buf : List Byte)
  | receive (svc : Service) (arg : Word)
  | powUnlock (reply : List Byte)
  /-- In `jtag_readbuffer`: `i` words written, `ws` still to write. -/
  | rbLock (svc : Service) (reply : List Byte)
  | rbWrite (svc : Service) (reply : List Byte) (i : Nat) (ws : List Word)
  | outerUnlock (o : Outcome)
  | leave (o : Outcome)
  | ackLock (o : Outcome)
  | ackRet (o : Outcome)
  | ackType (o : Outcome)
  | ackHigh (o : Outcome)
  | ackLow (o : Outcome)
  | ackUnlock (o : Outcome)
  | panicked (message : String)
  deriving DecidableEq, Repr

/-- The mutex a service holds around its work, where it has one. -/
def Service.outerLock : Service → Option Lock
  | .term_printf => some .term_write
  | .term_scanf => some .term_read
  | .read_pow => some .pow_sensr
  | _ => none

/-- `ethernet_open` or `wireless_open`. -/
def Service.openVar : Service → Global
  | .wireless_send | .wireless_recv => .wireless_open
  | _ => .ethernet_open

/-- The string a receive leaves in the service's buffer, terminator excluded: `term_readbuffer` keeps
119 characters, `receive_all` stores no more than it is asked for. -/
def Service.received (svc : Service) (arg : Word) (data : List Byte) : List Byte :=
  let stored := match svc with
    | .term_scanf => data.take (BUF_SIZE - 1)
    | .enet_recv => data.take BUF_SIZE
    | .wireless_recv => data.take arg.toNat
    | _ => data
  stored.takeWhile (· ≠ 0)

/-- The outcome of a service whose reply went through `jtag_readbuffer`, which returns the length. -/
def Outcome.replied (svc : Service) (reply : List Byte) : Outcome :=
  ⟨svc, BitVec.ofNat 32 (min reply.length (4 * BUF_WORDS)), some reply⟩

/-- The outcome of a service that gave up. -/
def Outcome.failed (svc : Service) : Outcome := ⟨svc, 0, none⟩

namespace WorkPc

/-- The `switch` of the worker loops. -/
def ofType (k : Worker) (type : Word) : WorkPc :=
  match k with
  | .pow => enter .read_pow type
  | .send =>
    match sendService type with
    | some svc => enter svc 0
    | none => panicked "Unsupported data send request\r\n"
  | .recv =>
    match recvService type with
    | some .term_scanf => enter .term_scanf 0
    | some svc => size svc
    | none => panicked "Unsupported data recv request\r\n"

/-- The first statement of a service. -/
def body (svc : Service) (arg : Word) : WorkPc :=
  match svc with
  | .term_printf | .term_scanf => outerLock svc arg
  | .read_pow => if arg ≠ 0 ∧ arg ≠ 1 then leave (.failed svc) else outerLock svc arg
  | _ => isOpen svc arg

/-- A service with its mutex held or its link open: it goes to its buffer. -/
def work (svc : Service) (arg : Word) : WorkPc :=
  if svc.worker = .send then wbLock svc else receive svc arg

/-- After the test of `ethernet_open` or `wireless_open`. -/
def opened (svc : Service) (arg v : Word) : WorkPc :=
  if v = 0 then leave (.failed svc) else work svc arg

/-- `jtag_writebuffer` after it has read the word of index `i`. -/
def wbNext (svc : Service) (i : Nat) (buf : List Byte) (w : Word) : WorkPc :=
  let buf := buf ++ (chunkBytes w).takeWhile (· ≠ 0)
  if (0 : Byte) ∈ chunkBytes w ∨ i + 1 = BUF_WORDS then wbUnlock svc buf else wbRead svc (i + 1) buf

/-- After `term_sendbuffer` or `send_all`. -/
def sent (svc : Service) (buf : List Byte) (ans : Answer) : WorkPc :=
  if svc = .term_printf then outerUnlock ⟨svc, BitVec.ofNat 32 buf.length, none⟩
  else leave ⟨svc, ans.ret, none⟩

/-- After the call that receives. -/
def got (svc : Service) (arg : Word) (ans : Answer) : WorkPc :=
  let reply := svc.received arg (ans.data.getD [])
  match svc with
  | .read_pow => powUnlock reply
  | .term_scanf => rbLock svc reply
  | _ => if ans.data = none then leave (.failed svc) else rbLock svc reply

/-- After `jtag_readbuffer`. -/
def copied (svc : Service) (reply : List Byte) : WorkPc :=
  if svc = .term_scanf then outerUnlock (.replied svc reply) else leave (.replied svc reply)

def code (k : Worker) : WorkPc → Instr WorkPc
  | wait => .signal_wait switch
  | switch => .load k.typeVar (ofType k)
  | size svc => .load (svc.argVar.getD .req_gain_ctrl) (enter svc)
  | enter svc arg => .call svc arg (body svc arg)
  | isOpen svc arg => .load svc.openVar (opened svc arg)
  | outerLock svc arg => .lock (svc.outerLock.getD .pow_sensr) (work svc arg)
  | wbLock svc => .lock .JTAG (wbRead svc 0 [])
  | wbRead svc i buf => .readMemory (writebufAddr i) (wbNext svc i buf)
  | wbUnlock svc buf => .unlock .JTAG (transmit svc buf)
  | transmit svc buf => .outside (.transmit svc buf) (sent svc buf)
  | receive svc arg => .outside (.receive svc arg) (got svc arg)
  | powUnlock reply => .unlock .pow_sensr (rbLock .read_pow reply)
  | rbLock svc reply => .lock .JTAG (rbWrite svc reply 0 (packWords BUF_WORDS reply))
  | rbWrite svc reply i (w :: ws) =>
    .writeMemory (readbufAddr i) w (rbWrite svc reply (i + 1) ws)
  | rbWrite svc reply _ [] => .unlock .JTAG (copied svc reply)
  | outerUnlock o => .unlock (o.svc.outerLock.getD .pow_sensr) (leave o)
  | leave o => .ret o (ackLock o)
  | ackLock o => .lock .JTAG (ackRet o)
  | ackRet o => .writeMemory ACK_RETURN_VAL o.rtn (ackType o)
  | ackType o => .writeMemory ACK_TYPE o.svc.ack (ackHigh o)
  | ackHigh o => .ack_intr true (ackLow o)
  | ackLow o => .ack_intr false (ackUnlock o)
  | ackUnlock _ => .unlock .JTAG wait
  | panicked message => .panic message

end WorkPc

end Expedition
