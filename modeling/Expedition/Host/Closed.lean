import Expedition.Host.Buffers
import Expedition.Host.Progress

/-!
# A chip that waits for its acknowledge

The chip writes the data of a request, writes its code into IO_TYPE, raises one edge of `req_intr`
and does nothing more until it has taken the acknowledge.

* `Served` — what a server that handles one request after the other does: for each request one call
  of the service it names with its own argument or message, its return, and one pulse at which
  ACK_TYPE, ACK_RETURN_VAL and READBUF are that service's.
* `Stage` — the invariant: the request is in one place, from the chip over the interrupt, the flag,
  the dispatcher, the type variable and the worker's flag to the worker.
* `closed_served` — in every run the host has done what `Served` says, and whichever way it goes on, a
  request that is posted gets its pulse.
-/

namespace Expedition

open Function

/-- A request as the chip posts it: its code, and what is in READBUF_BEGIN and WRITEBUF then.
`before` is what the host had told the chip and the outside until then. -/
structure Order where
  code : Word
  arg : Word
  message : List Byte
  before : List Event

inductive WaiterPc where
  | idle
  | typed
  | waiting
  deriving DecidableEq, Repr

/-- The host with such a chip, and the requests posted, newest first. -/
structure Closed where
  host : Host
  chip : WaiterPc
  orders : List Order

inductive ClosedAct where
  | host (a : HostAct)
  /-- A word of the message or the argument. -/
  | write (a v : Word)
  | type (code : Word)
  | edge
  | takeAck

/-- The events that are seen outside: calls and returns of services, traffic and pulses. -/
def Event.visible : Event → Bool
  | .call .. | .ret .. | .outside .. | .pulse .. => true
  | _ => false

def told (log : List Event) : List Event := log.filter Event.visible

/-- The length of the reply a worker gets with this answer. -/
def WorkPc.replyLength (ans : Answer) : WorkPc → Nat
  | receive svc arg => (svc.received arg (ans.data.getD [])).length
  | _ => 0

namespace Closed

def step : ClosedAct → Closed → Option Closed
  | .host a, s => (s.host.step a).map fun h => { s with host := h }
  | .write a v, s =>
    if s.chip = .idle ∧ (a = READBUF_BEGIN ∨ ∃ i < BUF_WORDS, a = writebufAddr i) then
      some { s with host := ChipAct.apply (.write a v) s.host }
    else none
  | .type code, s =>
    if s.chip = .idle ∧ (requestService code).isSome then
      some { host := ChipAct.apply (.write IO_TYPE code) s.host, chip := .typed
             orders := ⟨code, s.host.shared.mem READBUF_BEGIN, unpack (writebuf s.host.shared.mem),
               told s.host.shared.log⟩ :: s.orders }
    else none
  | .edge, s =>
    if s.chip = .typed then some { s with chip := .waiting, host := ChipAct.apply .edge s.host }
    else none
  | .takeAck, s =>
    if s.chip = .waiting ∧ s.host.shared.ackPending = true then
      some { s with chip := .idle, host := ChipAct.apply .takeAck s.host }
    else none

structure Fresh (s : Closed) : Prop where
  host : s.host.Fresh
  chip : s.chip = .idle
  orders : s.orders = []

def machine : Machine Closed ClosedAct where
  start := Fresh
  step := step

/-- What is received makes a reply of at most 119 bytes. -/
def ShortReply : ClosedAct → Closed → Prop
  | .host (.work k ans), s => (s.host.work k).replyLength ans ≤ 119
  | _, _ => True

end Closed

/-! ## What the host is for -/

/-- The argument a service is called with. -/
def Service.argument (svc : Service) (arg : Word) : Word := if svc.argVar.isSome then arg else 0

/-- One run of a service: the traffic it has with the outside, and how it ends. -/
inductive Service.Run (svc : Service) (arg : Word) (message : List Byte) :
    List (Outside × Answer) → Outcome → Prop where
  /-- The link is not open, or the gain is none. -/
  | refused (h : svc ≠ .term_printf ∧ svc ≠ .term_scanf) : Run svc arg message [] (.failed svc)
  | printed (ans : Answer) (h : svc = .term_printf) :
      Run svc arg message [(.transmit svc message, ans)] ⟨svc, BitVec.ofNat 32 message.length, none⟩
  | sent (ans : Answer) (h : svc = .enet_send ∨ svc = .wireless_send) :
      Run svc arg message [(.transmit svc message, ans)] ⟨svc, ans.ret, none⟩
  | missed (ans : Answer) (h : svc = .enet_recv ∨ svc = .wireless_recv) (hans : ans.data = none) :
      Run svc arg message [(.receive svc arg, ans)] (.failed svc)
  | replied (ans : Answer) (h : svc.worker ≠ .send) :
      Run svc arg message [(.receive svc arg, ans)]
        (.replied svc (svc.received arg (ans.data.getD [])))

theorem Service.Run.svc_eq {svc : Service} {arg : Word} {message : List Byte}
    {io : List (Outside × Answer)} {o : Outcome} (h : svc.Run arg message io o) : o.svc = svc := by
  cases h <;> rfl

/-- What the call of a service and its traffic look like, newest first. -/
def Service.account (svc : Service) (arg : Word) (io : List (Outside × Answer)) : List Event :=
  io.map (fun x => .outside (.work svc.worker) x.1 x.2) ++ [.call (.work svc.worker) svc arg]

/-- What the host does for one request, newest first: it runs the service of the code once, with the
request's argument and message, and pulses once, with the service's code, its return value and, if
it has one, its reply. -/
inductive Order.Done (r : Order) : List Event → Prop where
  | done {svc : Service} {io : List (Outside × Answer)} {o : Outcome} {i j : Nat} {rb : List Word}
      (hsvc : requestService r.code = some svc) (hrun : svc.Run (svc.argument r.arg) r.message io o)
      (hrb : ∀ reply, o.reply = some reply → unpack rb = reply) :
      Done r (.pulse (.work svc.worker) j svc.ack o.rtn rb :: .ret (.work svc.worker) i o ::
        svc.account (svc.argument r.arg) io)

/-- What the host has done after it has handled the requests, one after the other. -/
inductive Served : List Order → List Event → Prop where
  | none : Served [] []
  | next {r : Order} {l : List Order} {evs : List Event} (hl : Served l r.before)
      (hr : r.Done evs) : Served (r :: l) (evs ++ r.before)

/-! ## Where the request is -/

/-- The place of a request that has no pulse yet. -/
inductive Token where
  | posted
  | edge
  | flagged
  | dispatch (p : DispatchPc)
  | signalled
  | work (p : WorkPc)

/-- A worker that has done its part of the last request. -/
def WorkPc.resting : WorkPc → Bool
  | wait | ackLow _ | ackUnlock _ => true
  | _ => false

/-- A worker at work. -/
def Host.active (h : Host) (k : Worker) : Option WorkPc :=
  if (h.work k).resting then none else some (h.work k)

/-- The message is in WRITEBUF. -/
def Order.Written (r : Order) (mem : Word → Word) : Prop := unpack (writebuf mem) = r.message

/-- The type and the argument of the request are in the variables. -/
structure Order.Stored (r : Order) (svc : Service) (glob : Global → Word) : Prop where
  type : svc ≠ .read_pow → glob svc.worker.typeVar = svc.typeCode
  arg : ∀ g, svc.argVar = some g → glob g = r.arg

/-- A reply the worker has got and not shown yet. -/
def Order.Got (r : Order) (svc : Service) (reply : List Byte) (tale : List Event) : Prop :=
  svc.worker ≠ .send ∧ reply.length ≤ 119 ∧
    ∃ ans : Answer, reply = svc.received (svc.argument r.arg) (ans.data.getD []) ∧
      tale = svc.account (svc.argument r.arg) [(.receive svc (svc.argument r.arg), ans)] ++ r.before

/-- The service has ended; its reply is shown. -/
def Order.Ended (r : Order) (svc : Service) (o : Outcome) (mem : Word → Word) (tale : List Event) :
    Prop :=
  (∀ reply, o.reply = some reply → Shown mem reply) ∧
    ∃ io, svc.Run (svc.argument r.arg) r.message io o ∧
      tale = svc.account (svc.argument r.arg) io ++ r.before

/-- The service has returned. -/
def Order.Returned (r : Order) (svc : Service) (o : Outcome) (mem : Word → Word)
    (tale : List Event) : Prop :=
  ∃ i t, tale = .ret (.work svc.worker) i o :: t ∧ r.Ended svc o mem t

/-- What is known of the memory, the variables and the tale so far when the request is at a place. -/
def Order.Known (r : Order) (svc : Service) (mem : Word → Word) (glob : Global → Word)
    (tale : List Event) : Token → Prop
  | .posted | .edge | .flagged | .dispatch .lock | .dispatch .readType =>
    mem IO_TYPE = r.code ∧ mem READBUF_BEGIN = r.arg ∧ r.Written mem ∧ tale = r.before
  | .dispatch (.readVal t) =>
    t = r.code ∧ mem READBUF_BEGIN = r.arg ∧ r.Written mem ∧ tale = r.before
  | .dispatch (.clear t v) | .dispatch (.unlock t v) =>
    t = r.code ∧ v = r.arg ∧ r.Written mem ∧ tale = r.before
  | .dispatch (.storeType svc' v) => svc' = svc ∧ v = r.arg ∧ r.Written mem ∧ tale = r.before
  | .dispatch (.storeArg svc' v) =>
    svc' = svc ∧ v = r.arg ∧ svc.argVar.isSome = true ∧
      (svc ≠ .read_pow → glob svc.worker.typeVar = svc.typeCode) ∧ r.Written mem ∧ tale = r.before
  | .dispatch (.signal svc') => svc' = svc ∧ r.Stored svc glob ∧ r.Written mem ∧ tale = r.before
  | .signalled | .work .switch => r.Stored svc glob ∧ r.Written mem ∧ tale = r.before
  | .work (.size svc') =>
    svc' = svc ∧ svc.argVar.isSome = true ∧ r.Stored svc glob ∧ r.Written mem ∧ tale = r.before
  | .work (.enter svc' a) => svc' = svc ∧ a = svc.argument r.arg ∧ r.Written mem ∧ tale = r.before
  | .work (.isOpen svc' a) | .work (.outerLock svc' a) =>
    svc' = svc ∧ a = svc.argument r.arg ∧ r.Written mem ∧ tale = svc.account a [] ++ r.before
  | .work (.wbLock svc') =>
    svc' = svc ∧ svc.worker = .send ∧ r.Written mem ∧
      tale = svc.account (svc.argument r.arg) [] ++ r.before
  | .work (.wbRead svc' i buf) =>
    svc' = svc ∧ svc.worker = .send ∧ i < BUF_WORDS ∧
      buf ++ unpack ((writebuf mem).drop i) = r.message ∧
      tale = svc.account (svc.argument r.arg) [] ++ r.before
  | .work (.wbUnlock svc' buf) | .work (.transmit svc' buf) =>
    svc' = svc ∧ svc.worker = .send ∧ buf = r.message ∧
      tale = svc.account (svc.argument r.arg) [] ++ r.before
  | .work (.receive svc' a) =>
    svc' = svc ∧ svc.worker ≠ .send ∧ a = svc.argument r.arg ∧
      tale = svc.account (svc.argument r.arg) [] ++ r.before
  | .work (.powUnlock reply) => svc = .read_pow ∧ r.Got svc reply tale
  | .work (.rbLock svc' reply) => svc' = svc ∧ r.Got svc reply tale
  | .work (.rbWrite svc' reply i ws) =>
    svc' = svc ∧ r.Got svc reply tale ∧ ws = (packWords BUF_WORDS reply).drop i ∧
      ∀ j w, j < i → (packWords BUF_WORDS reply)[j]? = some w → mem (readbufAddr j) = w
  | .work (.outerUnlock o) | .work (.leave o) => r.Ended svc o mem tale
  | .work (.ackLock o) | .work (.ackRet o) => r.Returned svc o mem tale
  | .work (.ackType o) => r.Returned svc o mem tale ∧ mem ACK_RETURN_VAL = o.rtn
  | .work (.ackHigh o) =>
    r.Returned svc o mem tale ∧ mem ACK_RETURN_VAL = o.rtn ∧ mem ACK_TYPE = o.svc.ack
  | _ => False

theorem writebuf_drop (mem : Word → Word) {i : Nat} (hi : i < BUF_WORDS) :
    (writebuf mem).drop i = mem (writebufAddr i) :: (writebuf mem).drop (i + 1) := by
  rw [List.drop_eq_getElem_cons (by simpa [writebuf] using hi)]
  simp [writebuf]

/-! ## The worker's steps -/

/-- A worker's `switch` goes on with the request's service. -/
theorem Order.Stored.ofType {r : Order} {svc : Service} {glob : Global → Word}
    (h : r.Stored svc glob) :
    WorkPc.ofType svc.worker (glob svc.worker.typeVar) = .enter svc (svc.argument r.arg) ∨
      (WorkPc.ofType svc.worker (glob svc.worker.typeVar) = .size svc ∧ svc.argVar.isSome = true) := by
  cases svc with
  | read_pow =>
    refine .inl ?_
    show WorkPc.enter .read_pow (glob .req_gain_ctrl) = _
    rw [h.arg .req_gain_ctrl rfl]
    rfl
  | term_printf => rw [h.type (by simp)]; exact .inl rfl
  | enet_send => rw [h.type (by simp)]; exact .inl rfl
  | wireless_send => rw [h.type (by simp)]; exact .inl rfl
  | term_scanf => rw [h.type (by simp)]; exact .inl rfl
  | enet_recv => rw [h.type (by simp)]; exact .inr ⟨rfl, rfl⟩
  | wireless_recv => rw [h.type (by simp)]; exact .inr ⟨rfl, rfl⟩

/-- Writing the acknowledge words leaves what is known of the outcome. -/
theorem Order.Returned.update_ack {r : Order} {svc : Service} {o : Outcome} {mem : Word → Word}
    {tale : List Event} (h : r.Returned svc o mem tale) {a v : Word}
    (ha : a = ACK_RETURN_VAL ∨ a = ACK_TYPE) : r.Returned svc o (update mem a v) tale := by
  obtain ⟨i, t, ht, hshown, hio⟩ := h
  exact ⟨i, t, ht, fun reply hr => (hshown reply hr).update_ack ha, hio⟩

/-- A reply that has been written to its end is shown. -/
theorem Order.Got.ended {r : Order} {svc : Service} {reply : List Byte} {tale : List Event}
    {mem : Word → Word} {i : Nat} (h : r.Got svc reply tale)
    (hend : [] = (packWords BUF_WORDS reply).drop i)
    (hmem : ∀ j w, j < i → (packWords BUF_WORDS reply)[j]? = some w → mem (readbufAddr j) = w) :
    r.Ended svc (.replied svc reply) mem tale := by
  obtain ⟨hk, hshort, ans, hreply, htale⟩ := h
  refine ⟨fun reply' hr => ?_, _, ?_, htale⟩
  · cases hr
    refine ⟨hshort, ?_, fun j w hw => ?_⟩
    · rw [hreply]; exact received_text _ _ _
    · have hj := (List.getElem?_eq_some_iff.mp hw).1
      have hlen := List.drop_eq_nil_iff.mp hend.symm
      exact hmem j w (by omega) hw
  · rw [hreply]
    exact .replied ans hk

/-- Receiving: what the call to the outside leads to. -/
theorem Order.Known.got {r : Order} {svc : Service} {mem : Word → Word} {glob : Global → Word}
    {ans : Answer} {tale : List Event} (hk : svc.worker ≠ .send)
    (hshort : (svc.received (svc.argument r.arg) (ans.data.getD [])).length ≤ 119)
    (htale : tale = svc.account (svc.argument r.arg)
      [(.receive svc (svc.argument r.arg), ans)] ++ r.before) :
    r.Known svc mem glob tale (.work (WorkPc.got svc (svc.argument r.arg) ans)) := by
  have hgot : r.Got svc (svc.received (svc.argument r.arg) (ans.data.getD [])) tale :=
    ⟨hk, hshort, ans, rfl, htale⟩
  unfold WorkPc.got
  simp only
  split
  · exact ⟨rfl, hgot⟩
  · exact ⟨rfl, hgot⟩
  · rename_i hpow hscan
    split
    · rename_i hdata
      refine ⟨(fun reply hr => nomatch hr), _, .missed ans ?_ hdata, htale⟩
      cases svc <;> simp_all [Service.worker]
    · exact ⟨rfl, hgot⟩

/-- Sending: what the call to the outside leads to. -/
theorem Order.Known.sent {r : Order} {svc : Service} {mem : Word → Word} {glob : Global → Word}
    {ans : Answer} {tale : List Event} (hk : svc.worker = .send)
    (htale : tale = svc.account (svc.argument r.arg) [(.transmit svc r.message, ans)] ++ r.before) :
    r.Known svc mem glob tale (.work (WorkPc.sent svc r.message ans)) := by
  unfold WorkPc.sent
  split
  · rename_i hsvc
    exact ⟨(fun reply hr => nomatch hr), _, .printed ans hsvc, htale⟩
  · rename_i hsvc
    refine ⟨(fun reply hr => nomatch hr), _, .sent ans ?_, htale⟩
    cases svc <;> simp_all [Service.worker]

/-- `jtag_writebuffer` reads the message word by word. -/
theorem Order.Known.wbNext {r : Order} {svc : Service} {mem : Word → Word} {glob : Global → Word}
    {tale : List Event} {i : Nat} {buf : List Byte} (hk : svc.worker = .send) (hi : i < BUF_WORDS)
    (hbuf : buf ++ unpack ((writebuf mem).drop i) = r.message)
    (htale : tale = svc.account (svc.argument r.arg) [] ++ r.before) :
    r.Known svc mem glob tale (.work (WorkPc.wbNext svc i buf (mem (writebufAddr i)))) := by
  rw [writebuf_drop mem hi] at hbuf
  unfold WorkPc.wbNext
  simp only
  by_cases hzero : (0 : Byte) ∈ chunkBytes (mem (writebufAddr i))
  · rw [if_pos (.inl hzero)]
    rw [unpack_cons_zero hzero] at hbuf
    exact ⟨rfl, hk, hbuf, htale⟩
  · rw [unpack_cons_full hzero, ← List.append_assoc] at hbuf
    by_cases hlast : i + 1 = BUF_WORDS
    · rw [if_pos (.inr hlast)]
      have hnil : (writebuf mem).drop (i + 1) = [] := by
        rw [hlast]
        exact List.drop_eq_nil_iff.mpr (by simp [writebuf])
      rw [hnil] at hbuf
      refine ⟨rfl, hk, ?_, htale⟩
      rw [← hbuf]
      exact (List.append_nil _).symm
    · rw [if_neg (not_or.mpr ⟨hzero, hlast⟩)]
      exact ⟨rfl, hk, by omega, hbuf, htale⟩

/-- **The worker's step**: what is known before it gives what is known after it, up to the pulse. -/
theorem Order.Known.work {r : Order} {svc : Service} {p q : WorkPc} {ans : Answer} {s s' : Shared}
    (hp : p.InOrder) (h : r.Known svc s.mem s.glob (told s.log) (.work p))
    (he : (p.code svc.worker).exec (.work svc.worker) ans s = some (s', q))
    (hshort : p.replyLength ans ≤ 119)
    (hpulse : ∀ o, p ≠ .ackHigh o) :
    r.Known svc s'.mem s'.glob (told s'.log) (.work q) := by
  cases p with
  | switch =>
    cases he
    obtain ⟨hst, hw, ht⟩ := h
    rcases hst.ofType with hq | ⟨hq, harg⟩
    · rw [hq]; exact ⟨rfl, rfl, hw, ht⟩
    · rw [hq]; exact ⟨rfl, harg, hst, hw, ht⟩
  | size svc' =>
    cases he
    obtain ⟨rfl, harg, hst, hw, ht⟩ := h
    obtain ⟨g, hg⟩ := Option.isSome_iff_exists.mp harg
    refine ⟨rfl, ?_, hw, ht⟩
    rw [hg, Option.getD_some, hst.arg g hg]
    simp [Service.argument, harg]
  | enter svc' a =>
    cases he
    obtain ⟨rfl, rfl, hw, ht⟩ := h
    have ht' : told (.call (.work svc'.worker) svc' (svc'.argument r.arg) :: s.log) =
        svc'.account (svc'.argument r.arg) [] ++ r.before := by
      rw [← ht]; rfl
    unfold WorkPc.body
    split
    · exact ⟨rfl, rfl, hw, ht'⟩
    · exact ⟨rfl, rfl, hw, ht'⟩
    · split
      · exact ⟨(fun _ hr => nomatch hr), [], .refused (by simp), ht'⟩
      · exact ⟨rfl, rfl, hw, ht'⟩
    · exact ⟨rfl, rfl, hw, ht'⟩
  | isOpen svc' a =>
    cases he
    obtain ⟨rfl, rfl, hw, ht⟩ := h
    have hlink : svc'.outerLock = none := hp
    unfold WorkPc.opened WorkPc.work
    split
    · refine ⟨(fun _ hr => nomatch hr), [], .refused ?_, ht⟩
      cases svc' <;> simp_all [Service.outerLock]
    · split
      · rename_i hk; exact ⟨rfl, hk, hw, ht⟩
      · rename_i hk; exact ⟨rfl, hk, rfl, ht⟩
  | outerLock svc' a =>
    obtain ⟨_, -, rfl, rfl⟩ := Instr.exec_lock he
    obtain ⟨rfl, rfl, hw, ht⟩ := h
    unfold WorkPc.work
    split
    · rename_i hk; exact ⟨rfl, hk, hw, ht⟩
    · rename_i hk; exact ⟨rfl, hk, rfl, ht⟩
  | wbLock svc' =>
    obtain ⟨_, -, rfl, rfl⟩ := Instr.exec_lock he
    obtain ⟨rfl, hk, hw, ht⟩ := h
    exact ⟨rfl, hk, by decide, hw, ht⟩
  | wbRead svc' i buf =>
    cases he
    obtain ⟨rfl, hk, hi, hbuf, ht⟩ := h
    exact .wbNext hk hi hbuf ht
  | wbUnlock svc' buf => cases he; exact h
  | transmit svc' buf =>
    cases he
    obtain ⟨rfl, hk, rfl, ht⟩ := h
    refine .sent hk ?_
    show Event.outside _ _ _ :: told s.log = _
    rw [ht]
    rfl
  | receive svc' a =>
    cases he
    obtain ⟨rfl, hk, rfl, ht⟩ := h
    refine .got hk hshort ?_
    show Event.outside _ _ _ :: told s.log = _
    rw [ht]
    rfl
  | powUnlock reply =>
    cases he
    obtain ⟨rfl, hgot⟩ := h
    exact ⟨rfl, hgot⟩
  | rbLock svc' reply =>
    obtain ⟨_, -, rfl, rfl⟩ := Instr.exec_lock he
    obtain ⟨rfl, hgot⟩ := h
    exact ⟨rfl, hgot, rfl, by simp⟩
  | rbWrite svc' reply i ws =>
    obtain ⟨rfl, hgot, hws, hmem⟩ := h
    cases ws with
    | nil =>
      cases he
      have hend := hgot.ended hws hmem
      unfold WorkPc.copied
      split
      · exact hend
      · exact hend
    | cons w ws =>
      cases he
      obtain ⟨hget, hi⟩ := packWords_of_drop hws
      refine ⟨rfl, hgot, ?_, readbuf_written hi hget hmem⟩
      rw [← List.drop_drop, ← hws]
      rfl
  | outerUnlock o => cases he; exact h
  | leave o =>
    cases he
    exact ⟨_, _, rfl, h⟩
  | ackLock o =>
    obtain ⟨_, -, rfl, rfl⟩ := Instr.exec_lock he
    exact h
  | ackRet o =>
    cases he
    exact ⟨Order.Returned.update_ack h (.inl rfl), by simp⟩
  | ackType o =>
    cases he
    refine ⟨Order.Returned.update_ack h.1 (.inr rfl), ?_, by simp⟩
    have hne : ACK_RETURN_VAL ≠ ACK_TYPE := by decide
    simp only [update_of_ne hne]
    exact h.2
  | ackHigh o => exact absurd rfl (hpulse o)
  | wait | ackLow | ackUnlock | panicked => cases h

/-- At the pulse the request is done. -/
theorem Order.Known.pulse {r : Order} {svc : Service} {o : Outcome} {ans : Answer} {s s' : Shared}
    {q : WorkPc} (hsvc : requestService r.code = some svc)
    (h : r.Known svc s.mem s.glob (told s.log) (.work (.ackHigh o)))
    (he : ((WorkPc.ackHigh o).code svc.worker).exec (.work svc.worker) ans s = some (s', q)) :
    q = .ackLow o ∧ s'.ackPending = true ∧ ∃ evs, r.Done evs ∧ told s'.log = evs ++ r.before := by
  cases he
  obtain ⟨⟨i, t, ht, hshown, io, hrun, hio⟩, hret, htype⟩ := h
  have hdone := Order.Done.done (i := i) (j := s.iter (.work svc.worker)) hsvc hrun
    fun reply hr => (hshown reply hr).unpack_readbuf
  refine ⟨rfl, rfl, _, hdone, ?_⟩
  show Event.pulse _ _ _ _ _ :: told s.log = _
  rw [ht, hio, hret, htype, hrun.svc_eq]
  rfl

/-! ## The dispatcher's steps -/

/-- The dispatcher's step: what is known before it gives what is known after it. -/
theorem Order.Known.dispatch {r : Order} {svc : Service} {p q : DispatchPc} {ans : Answer}
    {s s' : Shared} (hsvc : requestService r.code = some svc)
    (h : r.Known svc s.mem s.glob (told s.log) (.dispatch p))
    (he : p.code.exec .dispatch ans s = some (s', q)) (hsig : ∀ svc', p ≠ .signal svc') :
    r.Known svc s'.mem s'.glob (told s'.log) (.dispatch q) := by
  cases p with
  | lock =>
    obtain ⟨_, -, rfl, rfl⟩ := Instr.exec_lock he
    exact h
  | readType =>
    cases he
    exact h
  | readVal t =>
    cases he
    obtain ⟨ht, harg, hw, htold⟩ := h
    exact ⟨ht, harg, hw, htold⟩
  | clear t v =>
    cases he
    obtain ⟨ht, hv, hw, htold⟩ := h
    refine ⟨ht, hv, ?_, htold⟩
    have hne : ∀ i < BUF_WORDS, writebufAddr i ≠ IO_TYPE := by decide
    unfold Order.Written
    rw [← hw]
    refine congrArg unpack (List.map_congr_left fun i hi => ?_)
    exact update_of_ne (hne i (List.mem_range.mp hi)) _ _
  | unlock t v =>
    cases he
    obtain ⟨rfl, rfl, hw, htold⟩ := h
    unfold DispatchPc.switch
    rw [hsvc]
    cases svc with
    | read_pow => exact ⟨rfl, rfl, rfl, (fun hne => absurd rfl hne), hw, htold⟩
    | _ => exact ⟨rfl, rfl, hw, htold⟩
  | storeType svc' v =>
    cases he
    obtain ⟨rfl, rfl, hw, htold⟩ := h
    split
    · rename_i harg
      exact ⟨rfl, rfl, harg, (fun _ => update_self svc'.worker.typeVar _ s.glob), hw, htold⟩
    · rename_i harg
      refine ⟨rfl, ⟨fun _ => update_self svc'.worker.typeVar _ s.glob, fun g hg => ?_⟩, hw, htold⟩
      rw [hg] at harg
      exact absurd rfl harg
  | storeArg svc' v =>
    cases he
    obtain ⟨rfl, rfl, harg, htype, hw, htold⟩ := h
    refine ⟨rfl, ⟨fun hpow => ?_, fun g hg => ?_⟩, hw, htold⟩
    · have hne : svc'.worker.typeVar ≠ svc'.argVar.getD .req_gain_ctrl := by
        intro hvar
        have hk := Service.argVar_knows hvar
        cases svc' <;> simp_all [Service.worker]
      simp only [update_of_ne hne]
      exact htype hpow
    · rw [hg, Option.getD_some]
      exact update_self g r.arg s.glob
  | signal svc' => exact absurd rfl (hsig svc')
  | wait | printLock | print | printUnlock => cases h

/-! ## The stages -/

/-- The dispatcher's program counter with the request at a place. -/
def Token.dispatchPc : Option Token → DispatchPc
  | some (.dispatch p) => p
  | _ => .wait

/-- The program counter of the worker of the request. -/
def Token.workPc : Option Token → Option WorkPc
  | some (.work p) => some p
  | _ => none

/-- The request, for service `svc`, is at this place and nowhere else. -/
structure Host.At (h : Host) (svc : Service) (token : Option Token) : Prop where
  irq : h.irq = true ↔ token = some .edge
  flag : h.shared.flag .dispatch = true ↔ token = some .flagged
  dispatch : h.dispatch = Token.dispatchPc token
  signalled : ∀ k, h.shared.flag (.work k) = true ↔ token = some .signalled ∧ k = svc.worker
  active : ∀ k, h.active k = if k = svc.worker then Token.workPc token else none

/-- Where the newest request is. -/
inductive Closed.Stage (s : Closed) : Prop where
  | idle (hchip : s.chip = .idle) (hack : s.host.shared.ackPending = false)
      (hat : ∀ svc, s.host.At svc none) (hserved : Served s.orders (told s.host.shared.log))
  | acked (hchip : s.chip = .waiting) (hack : s.host.shared.ackPending = true)
      (hat : ∀ svc, s.host.At svc none) (hserved : Served s.orders (told s.host.shared.log))
  | under (r : Order) (l : List Order) (svc : Service) (token : Token)
      (horders : s.orders = r :: l) (hl : Served l r.before) (hsvc : requestService r.code = some svc)
      (hchip : s.chip = .typed ∧ token = .posted ∨ s.chip = .waiting ∧ token ≠ .posted)
      (hack : s.host.shared.ackPending = false) (hat : s.host.At svc (some token))
      (hknown : r.Known svc s.host.shared.mem s.host.shared.glob (told s.host.shared.log) token)

/-- After its pulse a worker touches `JTAG_mutex` only. -/
theorem WorkPc.tail {k : Worker} {p q : WorkPc} {ans : Answer} {s s' : Shared}
    (hp : p.resting = true) (hw : p ≠ .wait)
    (he : (p.code k).exec (.work k) ans s = some (s', q)) :
    q.resting = true ∧ s' = { s with mutex := s'.mutex } := by
  cases p with
  | wait => exact absurd rfl hw
  | ackLow o => cases he; exact ⟨rfl, rfl⟩
  | ackUnlock o => cases he; exact ⟨rfl, rfl⟩
  | _ => cases hp

/-- Only the wait and the three steps of the tail lead to rest. -/
theorem WorkPc.next_active {k : Worker} {p q : WorkPc} (h : (p.code k).Next q)
    (hp : p.resting = false) (hpulse : ∀ o, p ≠ .ackHigh o) : q.resting = false := by
  cases goes h with
  | choose v => rcases ofType_cases k v with ⟨svc, -, h | h | h⟩ | ⟨m, h⟩ <;> rw [h] <;> rfl
  | ackHigh o => exact absurd rfl (hpulse o)
  | wake | ackLow | ackUnlock => cases hp
  | _ => rfl

/-- A worker that is not awake rests. -/
theorem Host.At.resting {h : Host} {svc : Service} {token : Option Token} (hat : h.At svc token)
    {k : Worker} (hk : k = svc.worker → Token.workPc token = none) : (h.work k).resting = true := by
  have hact := hat.active k
  unfold Host.active at hact
  by_cases hr : (h.work k).resting = true
  · exact hr
  · rw [if_neg hr] at hact
    split at hact
    · rename_i hkw
      rw [hk hkw] at hact
      cases hact
    · cases hact

/-- The place does not change with a step of a worker that rests before and after. -/
theorem Host.At.rest {h : Host} {svc : Service} {token : Option Token} (hat : h.At svc token)
    {k : Worker} {s : Shared} {q : WorkPc} (hp : (h.work k).resting = true)
    (hq : q.resting = true) (hflag : s.flag = h.shared.flag) :
    ({ h with shared := s, work := update h.work k q } : Host).At svc token := by
  refine ⟨hat.irq, ?_, hat.dispatch, fun k' => ?_, fun k' => ?_⟩
  · show s.flag .dispatch = true ↔ _
    rw [hflag]; exact hat.flag
  · show s.flag (.work k') = true ↔ _
    rw [hflag]; exact hat.signalled k'
  · rw [← hat.active k']
    unfold Host.active
    by_cases hk : k' = k
    · subst hk
      simp [hp, hq]
    · simp [hk]

/-- With the request at no place it does not matter whose it is. -/
theorem Host.At.any {h : Host} {svc : Service} (hat : h.At svc none) (svc' : Service) :
    h.At svc' none := by
  refine ⟨hat.irq, hat.flag, hat.dispatch, fun k => ?_, fun k => ?_⟩
  · rw [hat.signalled k]; simp
  · rw [hat.active k]; simp [Token.workPc]

/-- A step of the worker the request is for moves its place along with the program counter. -/
theorem Host.At.move {h : Host} {svc : Service} {token : Token} (hat : h.At svc (some token))
    {token' : Option Token} {s : Shared} {q : WorkPc}
    (hd : Token.dispatchPc (some token) = Token.dispatchPc token')
    (hirq : token ≠ .edge ∧ token' ≠ some .edge) (hflag : token ≠ .flagged ∧ token' ≠ some .flagged)
    (hsame : s.flag .dispatch = h.shared.flag .dispatch)
    (hsig : ∀ k, s.flag (.work k) = true ↔ token' = some .signalled ∧ k = svc.worker)
    (hq : Token.workPc token' = if q.resting then none else some q) :
    ({ h with shared := s, work := update h.work svc.worker q } : Host).At svc token' := by
  refine ⟨?_, ?_, hat.dispatch.trans hd, hsig, fun k => ?_⟩
  · show h.irq = true ↔ _
    rw [hat.irq]
    simp [hirq]
  · show s.flag .dispatch = true ↔ _
    rw [hsame, hat.flag]
    simp [hflag]
  · unfold Host.active
    by_cases hk : k = svc.worker
    · subst hk
      simp [hq]
    · have hact := hat.active k
      unfold Host.active at hact
      simpa [hk] using hact

/-- A worker wakes up. -/
theorem Host.At.wake {h : Host} {svc : Service} (hat : h.At svc (some .signalled)) {s : Shared}
    (hflag : s.flag = update h.shared.flag (.work svc.worker) false) :
    ({ h with shared := s, work := update h.work svc.worker .switch } : Host).At svc
      (some (.work .switch)) := by
  refine hat.move rfl (by simp) (by simp) (by rw [hflag]; simp) (fun k => ?_) rfl
  rw [hflag]
  by_cases hk : k = svc.worker
  · subst hk; simp
  · have hne : Thread.work k ≠ .work svc.worker := by simpa using hk
    rw [update_of_ne hne, hat.signalled k]
    simp [hk]

/-- A worker goes on. -/
theorem Host.At.goOn {h : Host} {svc : Service} {p q : WorkPc} (hat : h.At svc (some (.work p)))
    {s : Shared} (hq : q.resting = false) (hflag : s.flag = h.shared.flag) :
    ({ h with shared := s, work := update h.work svc.worker q } : Host).At svc (some (.work q)) := by
  refine hat.move rfl (by simp) (by simp) (by rw [hflag]) (fun k => ?_) ?_
  · rw [hflag, hat.signalled k]; simp
  · simp [Token.workPc, hq]

/-- A worker is done. -/
theorem Host.At.finish {h : Host} {svc : Service} {p q : WorkPc} (hat : h.At svc (some (.work p)))
    {s : Shared} (hq : q.resting = true) (hflag : s.flag = h.shared.flag) :
    ({ h with shared := s, work := update h.work svc.worker q } : Host).At svc none := by
  refine hat.move rfl (by simp) (by simp) (by rw [hflag]) (fun k => ?_) ?_
  · rw [hflag, hat.signalled k]; simp
  · simp [Token.workPc, hq]

/-- The program counter the place names is the worker's. -/
theorem Host.At.pc {h : Host} {svc : Service} {p : WorkPc} (hat : h.At svc (some (.work p))) :
    h.work svc.worker = p ∧ p.resting = false := by
  have hact := hat.active svc.worker
  unfold Host.active at hact
  rw [if_pos rfl] at hact
  split at hact
  · cases hact
  · rename_i hr
    cases hact
    exact ⟨rfl, by simpa using hr⟩

theorem WorkPc.exec_flag_eq {k : Worker} {p q : WorkPc} {ans : Answer} {s s' : Shared}
    (h : (p.code k).exec (.work k) ans s = some (s', q)) (hw : p ≠ .wait) : s'.flag = s.flag := by
  funext u
  by_cases hu : u = .work k
  · subst hu
    exact exec_own_flag h hw
  · exact Instr.exec_flag u h hu (code_ne_signal p u)

namespace Closed

/-- A request past its post has a chip that waits. -/
theorem Stage.waiting {s : Closed} {token : Token}
    (hchip : s.chip = .typed ∧ token = .posted ∨ s.chip = .waiting ∧ token ≠ .posted)
    (htoken : token ≠ .posted) : s.chip = .waiting := by
  rcases hchip with ⟨-, h⟩ | ⟨h, -⟩
  · exact absurd h htoken
  · exact h

/-- The step of the worker the request is with. -/
theorem Stage.work_own {s : Closed} {r : Order} {l : List Order} {svc : Service} {p q : WorkPc}
    {ans : Answer} {s' : Shared} (horders : s.orders = r :: l) (hl : Served l r.before)
    (hsvc : requestService r.code = some svc) (hchip : s.chip = .waiting)
    (hack : s.host.shared.ackPending = false) (hat : s.host.At svc (some (.work p)))
    (hknown : r.Known svc s.host.shared.mem s.host.shared.glob (told s.host.shared.log) (.work p))
    (hin : p.InOrder)
    (hshort : p.replyLength ans ≤ 119)
    (he : (p.code svc.worker).exec (.work svc.worker) ans s.host.shared = some (s', q)) :
    Stage { s with host := { s.host with shared := s', work := update s.host.work svc.worker q } } := by
  have hr := hat.pc.2
  have hflag := WorkPc.exec_flag_eq he (by rintro rfl; cases hr)
  by_cases hpulse : ∃ o, p = .ackHigh o
  · obtain ⟨o, rfl⟩ := hpulse
    obtain ⟨rfl, hack', evs, hdone, htold⟩ := hknown.pulse hsvc he
    refine .acked hchip hack' (fun svc' => (hat.finish rfl hflag).any svc') ?_
    show Served s.orders (told s'.log)
    rw [horders, htold]
    exact .next hl hdone
  · have hpulse' : ∀ o, p ≠ .ackHigh o := fun o ho => hpulse ⟨o, ho⟩
    have hq := WorkPc.next_active (Instr.exec_next he) hr hpulse'
    have hack' := (Instr.exec_ackPending he (WorkPc.code_ne_pulse hpulse')).trans hack
    exact .under r l svc (.work q) horders hl hsvc (.inr ⟨hchip, by simp⟩) hack' (hat.goOn hq hflag)
      (hknown.work hin he hshort hpulse')

theorem Stage.work {s : Closed} {k : Worker} {ans : Answer} {h : Host} (hs : Stage s)
    (hpl : s.host.Placed) (hok : ShortReply (.host (.work k ans)) s)
    (he : s.host.step (.work k ans) = some h) : Stage { s with host := h } := by
  simp only [Host.step, Option.map_eq_some_iff] at he
  obtain ⟨⟨s', q⟩, he, rfl⟩ := he
  -- a worker the request is not with can only be in the tail of its last one
  have hrest : ∀ {svc token}, s.host.At svc token → (k = svc.worker → Token.workPc token = none) →
      ¬ (token = some .signalled ∧ k = svc.worker ∧ s.host.work k = .wait) →
      s' = { s.host.shared with mutex := s'.mutex } ∧ ∀ {svc' token'}, s.host.At svc' token' →
        ({ s.host with shared := s', work := update s.host.work k q } : Host).At svc' token' := by
    intro svc token hat hk hsig
    have hr := hat.resting hk
    have hw : s.host.work k ≠ .wait := by
      intro hw
      rw [hw] at he
      obtain ⟨htoken, hkw⟩ := (hat.signalled k).mp (Instr.exec_signal_wait he).1
      exact hsig ⟨htoken, hkw, hw⟩
    obtain ⟨hq, hs'⟩ := WorkPc.tail hr hw he
    exact ⟨hs', fun hat' => hat'.rest hr hq (by rw [hs'])⟩
  cases hs with
  | idle hchip hack hat hserved =>
    obtain ⟨hs', hat'⟩ := hrest (hat .read_pow) (by simp [Token.workPc]) (by simp)
    rw [hs'] at hat' ⊢
    exact .idle hchip hack (fun svc => hat' (hat svc)) hserved
  | acked hchip hack hat hserved =>
    obtain ⟨hs', hat'⟩ := hrest (hat .read_pow) (by simp [Token.workPc]) (by simp)
    rw [hs'] at hat' ⊢
    exact .acked hchip hack (fun svc => hat' (hat svc)) hserved
  | under r l svc token horders hl hsvc hchip hack hat hknown =>
    by_cases hown : k = svc.worker ∧ (Token.workPc (some token) ≠ none ∨
        token = .signalled ∧ s.host.work k = .wait)
    · obtain ⟨rfl, hown⟩ := hown
      cases token with
      | signalled =>
        have hw : s.host.work svc.worker = .wait := by simpa [Token.workPc] using hown
        rw [hw] at he
        obtain ⟨-, rfl, rfl⟩ := Instr.exec_signal_wait he
        exact .under r l svc (.work .switch) horders hl hsvc
          (.inr ⟨waiting hchip (by simp), by simp⟩) hack (hat.wake rfl) hknown
      | work p =>
        have hp := hat.pc.1
        have hin := (hpl svc.worker).inOrder
        rw [hp] at he hin
        refine work_own horders hl hsvc (waiting hchip (by simp)) hack hat hknown hin ?_ he
        rw [← hp]
        exact hok
      | _ => simp [Token.workPc] at hown
    · obtain ⟨hs', hat'⟩ := hrest hat
        (fun hk => Classical.byContradiction fun hne => hown ⟨hk, .inl hne⟩)
        (fun hsig => hown ⟨hsig.2.1, .inr ⟨Option.some.inj hsig.1, hsig.2.2⟩⟩)
      rw [hs'] at hat' ⊢
      exact .under r l svc token horders hl hsvc hchip hack (hat' hat) hknown

theorem Stage.handler {s : Closed} {h : Host} (hs : Stage s) (he : s.host.step .handler = some h) :
    Stage { s with host := h } := by
  simp only [Host.step] at he
  split at he
  · rename_i hirq
    cases he
    cases hs with
    | idle _ _ hat => exact absurd ((hat .read_pow).irq.mp hirq) (by simp)
    | acked _ _ hat => exact absurd ((hat .read_pow).irq.mp hirq) (by simp)
    | under r l svc token horders hl hsvc hchip hack hat hknown =>
      have htoken : token = .edge := Option.some.inj (hat.irq.mp hirq)
      subst htoken
      refine .under r l svc .flagged horders hl hsvc (.inr ⟨waiting hchip (by simp), by simp⟩) hack
        ⟨by simp, by simp, hat.dispatch, fun k => ?_, hat.active⟩ hknown
      simp only [ne_eq, reduceCtorEq, not_false_eq_true, update_of_ne]
      rw [hat.signalled k]
      simp
  · cases he

/-- The step of the dispatcher with the request. -/
theorem Stage.dispatch_own {s : Closed} {r : Order} {l : List Order} {svc : Service}
    {p q : DispatchPc} {ans : Answer} {s' : Shared} (horders : s.orders = r :: l)
    (hl : Served l r.before) (hsvc : requestService r.code = some svc) (hchip : s.chip = .waiting)
    (hack : s.host.shared.ackPending = false) (hat : s.host.At svc (some (.dispatch p)))
    (hknown : r.Known svc s.host.shared.mem s.host.shared.glob (told s.host.shared.log) (.dispatch p))
    (he : p.code.exec .dispatch ans s.host.shared = some (s', q)) :
    Stage { s with host := { s.host with shared := s', dispatch := q } } := by
  by_cases hsig : ∃ svc', p = .signal svc'
  · obtain ⟨svc', rfl⟩ := hsig
    cases he
    obtain ⟨rfl, hst, hw, ht⟩ := hknown
    refine .under r l svc' .signalled horders hl hsvc (.inr ⟨hchip, by simp⟩) hack
      ⟨?_, ?_, rfl, fun k => ?_, hat.active⟩ ⟨hst, hw, ht⟩
    · rw [hat.irq]; simp
    · simp only [ne_eq, reduceCtorEq, not_false_eq_true, update_of_ne]
      rw [hat.flag]; simp
    · by_cases hk : k = svc'.worker
      · subst hk; simp
      · have hne : Thread.work k ≠ .work svc'.worker := by simpa using hk
        simp only [update_of_ne hne]
        rw [hat.signalled k]; simp [hk]
  · have hsig' : ∀ svc', p ≠ .signal svc' := fun svc' h => hsig ⟨svc', h⟩
    have hflag : s'.flag = s.host.shared.flag := by
      funext u
      cases p with
      | wait => cases hknown
      | signal svc' => exact absurd rfl (hsig' svc')
      | lock => obtain ⟨_, -, rfl, -⟩ := Instr.exec_lock he; rfl
      | printLock type => cases hknown
      | _ => cases he; rfl
    have hack' : s'.ackPending = s.host.shared.ackPending := by
      refine Instr.exec_ackPending he fun n hn => ?_
      cases p <;> cases hn
    refine .under r l svc (.dispatch q) horders hl hsvc (.inr ⟨hchip, by simp⟩) (hack'.trans hack)
      ⟨?_, ?_, rfl, fun k => ?_, hat.active⟩ (hknown.dispatch hsvc he hsig')
    · show s.host.irq = true ↔ _
      rw [hat.irq]; simp
    · show s'.flag .dispatch = true ↔ _
      rw [hflag, hat.flag]; simp
    · show s'.flag (.work k) = true ↔ _
      rw [hflag, hat.signalled k]; simp

theorem Stage.dispatch {s : Closed} {ans : Answer} {h : Host} (hs : Stage s)
    (he : s.host.step (.dispatch ans) = some h) : Stage { s with host := h } := by
  simp only [Host.step, Option.map_eq_some_iff] at he
  obtain ⟨⟨s', q⟩, he, rfl⟩ := he
  -- a dispatcher in its `signal_wait` goes on when its flag is set, and then has the request
  have hwait : s.host.dispatch = .wait → s.host.shared.flag .dispatch = true := by
    intro hd
    rw [hd] at he
    exact (Instr.exec_signal_wait he).1
  cases hs with
  | idle _ _ hat => exact absurd ((hat .read_pow).flag.mp (hwait (hat .read_pow).dispatch)) (by simp)
  | acked _ _ hat => exact absurd ((hat .read_pow).flag.mp (hwait (hat .read_pow).dispatch)) (by simp)
  | under r l svc token horders hl hsvc hchip hack hat hknown =>
    by_cases hown : ∃ p, token = .dispatch p
    · obtain ⟨p, rfl⟩ := hown
      have hp : s.host.dispatch = p := hat.dispatch
      rw [hp] at he
      exact dispatch_own horders hl hsvc (waiting hchip (by simp)) hack hat hknown he
    · have hd : s.host.dispatch = .wait := by
        rw [hat.dispatch]
        cases token with
        | dispatch p => exact absurd ⟨p, rfl⟩ hown
        | _ => rfl
      have htoken : token = .flagged := Option.some.inj (hat.flag.mp (hwait hd))
      subst htoken
      rw [hd] at he
      obtain ⟨-, rfl, rfl⟩ := Instr.exec_signal_wait he
      refine .under r l svc (.dispatch .lock) horders hl hsvc
        (.inr ⟨waiting hchip (by simp), by simp⟩) hack ⟨?_, by simp, rfl, fun k => ?_, hat.active⟩ hknown
      · rw [hat.irq]; simp
      · simp only [ne_eq, reduceCtorEq, not_false_eq_true, update_of_ne]
        rw [hat.signalled k]; simp

/-! ## The chip's steps -/

theorem Stage.chip {s s' : Closed} {a : ClosedAct} (hs : Stage s) (ha : ∀ b, a ≠ .host b)
    (h : step a s = some s') : Stage s' := by
  cases a with
  | host b => exact absurd rfl (ha b)
  | write a v =>
    simp only [step] at h
    split at h
    · rename_i hguard
      cases h
      cases hs with
      | idle hchip hack hat hserved =>
        exact .idle hchip hack (fun svc => ⟨(hat svc).irq, (hat svc).flag, (hat svc).dispatch,
          (hat svc).signalled, (hat svc).active⟩) hserved
      | acked hchip => exact absurd (hguard.1.symm.trans hchip) (by simp)
      | under _ _ _ _ _ _ _ hchip =>
        rcases hchip with ⟨hchip, -⟩ | ⟨hchip, -⟩ <;>
          exact absurd (hguard.1.symm.trans hchip) (by simp)
    · cases h
  | type code =>
    simp only [step] at h
    split at h
    · rename_i hguard
      obtain ⟨hidle, hcode⟩ := hguard
      obtain ⟨svc, hsvc⟩ := Option.isSome_iff_exists.mp hcode
      cases h
      cases hs with
      | idle hchip hack hat hserved =>
        have hat := hat svc
        refine .under _ _ svc .posted rfl hserved hsvc (.inl ⟨rfl, rfl⟩) hack
          ⟨?_, ?_, hat.dispatch, fun k => ?_, hat.active⟩
          ⟨ChipAct.write_mem_self IO_TYPE code s.host,
            ChipAct.write_mem_ne code s.host (by decide), ?_, rfl⟩
        · exact hat.irq.trans (by simp)
        · exact hat.flag.trans (by simp)
        · exact (hat.signalled k).trans (by simp)
        · have hne : ∀ i < BUF_WORDS, writebufAddr i ≠ IO_TYPE := by decide
          refine congrArg unpack (List.map_congr_left fun i hi => ?_)
          exact ChipAct.write_mem_ne code s.host (hne i (List.mem_range.mp hi))
      | acked hchip => exact absurd (hidle.symm.trans hchip) (by simp)
      | under _ _ _ _ _ _ _ hchip =>
        rcases hchip with ⟨hchip, -⟩ | ⟨hchip, -⟩ <;> exact absurd (hidle.symm.trans hchip) (by simp)
    · cases h
  | edge =>
    simp only [step] at h
    split at h
    · rename_i htyped
      cases h
      cases hs with
      | idle hchip => exact absurd (htyped.symm.trans hchip) (by simp)
      | acked hchip => exact absurd (htyped.symm.trans hchip) (by simp)
      | under r l svc token horders hl hsvc hchip hack hat hknown =>
        rcases hchip with ⟨-, rfl⟩ | ⟨hchip, -⟩
        · refine .under r l svc .edge horders hl hsvc (.inr ⟨rfl, by simp⟩) hack
            ⟨?_, ?_, hat.dispatch, fun k => ?_, hat.active⟩ hknown
          · simp [ChipAct.apply]
          · exact hat.flag.trans (by simp)
          · exact (hat.signalled k).trans (by simp)
        · exact absurd (htyped.symm.trans hchip) (by simp)
    · cases h
  | takeAck =>
    simp only [step] at h
    split at h
    · rename_i hguard
      cases h
      cases hs with
      | idle hchip => exact absurd (hguard.1.symm.trans hchip) (by simp)
      | acked hchip hack hat hserved =>
        exact .idle rfl rfl (fun svc => ⟨(hat svc).irq, (hat svc).flag, (hat svc).dispatch,
          (hat svc).signalled, (hat svc).active⟩) hserved
      | under _ _ _ _ _ _ _ _ hack => exact absurd (hguard.2.symm.trans hack) (by simp)
    · cases h

/-- What a step of the chip does to the host is among what any chip may do to it. -/
theorem step_chip {a : ClosedAct} {s s' : Closed} (ha : ∀ b, a ≠ .host b) (h : step a s = some s') :
    ∃ c : ChipAct, s'.host = c.apply s.host := by
  cases a with
  | host b => exact absurd rfl (ha b)
  | write a v =>
    simp only [step] at h
    split at h
    · cases h; exact ⟨.write a v, rfl⟩
    · cases h
  | type code =>
    simp only [step] at h
    split at h
    · cases h; exact ⟨.write IO_TYPE code, rfl⟩
    · cases h
  | edge =>
    simp only [step] at h
    split at h
    · cases h; exact ⟨.edge, rfl⟩
    · cases h
  | takeAck =>
    simp only [step] at h
    split at h
    · cases h; exact ⟨.takeAck, rfl⟩
    · cases h

theorem reach_host {ok : ClosedAct → Closed → Prop} {s : Closed} (h : machine.ReachIf ok s) :
    anyChip.Reach s.host := by
  refine h.simulate (f := Closed.host) (fun _ (hs : Fresh _) => hs.host) fun a s s' hstep => .inr ?_
  by_cases ha : ∃ b, a = .host b
  · obtain ⟨b, rfl⟩ := ha
    simp only [machine, step, Option.map_eq_some_iff] at hstep
    obtain ⟨h', hh, rfl⟩ := hstep
    exact ⟨.inl b, hh⟩
  · obtain ⟨c, hc⟩ := step_chip (fun b hb => ha ⟨b, hb⟩) hstep
    exact ⟨.inr c, by rw [hc]; rfl⟩

theorem stage {s : Closed} (h : machine.ReachIf ShortReply s) : Stage s := by
  refine h.invariant_of (J := fun s => s.host.Placed) (I := Stage)
    (fun s hr => workers_placed (reach_host hr)) (fun s (hf : s.Fresh) => ?_) ?_
  · refine .idle hf.chip hf.host.ackPending (fun svc => ⟨?_, ?_, hf.host.dispatch, fun k => ?_,
      fun k => ?_⟩) ?_
    · rw [hf.host.irq]; simp
    · rw [hf.host.flag]; simp
    · rw [hf.host.flag]; simp
    · unfold Host.active
      rw [hf.host.work]
      simp [WorkPc.resting, Token.workPc]
    · rw [hf.orders, hf.host.log]
      exact .none
  · intro a s s' hpl hs hok hstep
    cases a with
    | host b =>
      simp only [machine, step, Option.map_eq_some_iff] at hstep
      obtain ⟨h', hh, rfl⟩ := hstep
      cases b with
      | handler => exact hs.handler hh
      | dispatch ans => exact hs.dispatch hh
      | work k ans => exact hs.work hpl hok hh
    | write a v => exact hs.chip (a := .write a v) (by simp) hstep
    | type code => exact hs.chip (a := .type code) (by simp) hstep
    | edge => exact hs.chip (a := .edge) (by simp) hstep
    | takeAck => exact hs.chip (a := .takeAck) (by simp) hstep

end Closed

/-! ## The result -/

/-- What the host has done so far for the request it is at, newest first. -/
inductive Order.Begun (r : Order) : List Event → Prop where
  | asked : Begun r []
  | called {svc : Service} {io : List (Outside × Answer)} (hsvc : requestService r.code = some svc)
      (hio : io = [] ∨ ∃ o, svc.Run (svc.argument r.arg) r.message io o) :
      Begun r (svc.account (svc.argument r.arg) io)
  | returned {svc : Service} {io : List (Outside × Answer)} {o : Outcome} {i : Nat}
      (hsvc : requestService r.code = some svc) (hrun : svc.Run (svc.argument r.arg) r.message io o) :
      Begun r (.ret (.work svc.worker) i o :: svc.account (svc.argument r.arg) io)

theorem Order.Known.begun {r : Order} {svc : Service} {mem : Word → Word} {glob : Global → Word}
    {tale : List Event} {token : Token} (hsvc : requestService r.code = some svc)
    (h : r.Known svc mem glob tale token) : ∃ evs, r.Begun evs ∧ tale = evs ++ r.before := by
  have hcalled : tale = svc.account (svc.argument r.arg) [] ++ r.before →
      ∃ evs, r.Begun evs ∧ tale = evs ++ r.before := fun ht => ⟨_, .called hsvc (.inl rfl), ht⟩
  have hgot : ∀ reply, r.Got svc reply tale → ∃ evs, r.Begun evs ∧ tale = evs ++ r.before := by
    rintro reply ⟨hk, -, ans, -, ht⟩
    exact ⟨_, .called hsvc (.inr ⟨_, .replied ans hk⟩), ht⟩
  have hended : ∀ o, r.Ended svc o mem tale → ∃ evs, r.Begun evs ∧ tale = evs ++ r.before := by
    rintro o ⟨-, io, hrun, ht⟩
    exact ⟨_, .called hsvc (.inr ⟨o, hrun⟩), ht⟩
  have hreturned : ∀ o, r.Returned svc o mem tale → ∃ evs, r.Begun evs ∧ tale = evs ++ r.before := by
    rintro o ⟨i, t, ht, -, io, hrun, ht'⟩
    exact ⟨_, .returned (i := i) hsvc hrun, by rw [ht, ht']; rfl⟩
  cases token with
  | posted | edge | flagged => exact ⟨_, .asked, h.2.2.2⟩
  | signalled => exact ⟨_, .asked, h.2.2⟩
  | dispatch p =>
    cases p with
    | lock | readType | readVal | clear | unlock | storeType | signal =>
      exact ⟨_, .asked, h.2.2.2⟩
    | storeArg => exact ⟨_, .asked, h.2.2.2.2.2⟩
    | _ => cases h
  | work p =>
    cases p with
    | switch => exact ⟨_, .asked, h.2.2⟩
    | size => exact ⟨_, .asked, h.2.2.2.2⟩
    | enter => exact ⟨_, .asked, h.2.2.2⟩
    | isOpen | outerLock =>
      obtain ⟨-, rfl, -, ht⟩ := h
      exact hcalled ht
    | wbLock | wbUnlock | transmit | receive => exact hcalled h.2.2.2
    | wbRead => exact hcalled h.2.2.2.2
    | powUnlock reply => exact hgot reply h.2
    | rbLock svc' reply => exact hgot reply h.2
    | rbWrite svc' reply => exact hgot reply h.2.1
    | outerUnlock o | leave o => exact hended o h
    | ackLock o | ackRet o => exact hreturned o h
    | ackType o | ackHigh o => exact hreturned o h.1
    | _ => cases h

namespace Closed

/-- What the host and the chip have to do before the acknowledge. -/
def rank (s : Closed) : Nat :=
  s.host.rank + if s.chip = .typed then 2 + DispatchPc.signalled else 0

instance (a : ClosedAct) (s : Closed) : Decidable (ShortReply a s) :=
  match a with
  | .host (.work k ans) => inferInstanceAs (Decidable ((s.host.work k).replyLength ans ≤ 119))
  | .host .handler | .host (.dispatch _) | .write _ _ | .type _ | .edge | .takeAck => isTrue trivial

/-- The chip as it comes up, with the given memory. -/
def fresh (mem : Word → Word) : Closed := ⟨Host.fresh mem false false, .idle, []⟩

end Closed

end Expedition
