import Expedition.Host.Ack
import Expedition.Host.Posting
import Mathlib.Data.List.Forall2

/-!
# A chip with a request out for each worker

The chip keeps at most one request out for each worker and posts when IO_TYPE reads EMPTY_REQ.  Some
time after a pulse its handler takes the acknowledge and reads ACK_TYPE, ACK_RETURN_VAL and the words
of READBUF, one access after the other.  The workers complete into one acknowledge and one READBUF
and do not wait for the chip.

* `KeepsUnread` — the condition on a step under which nothing gets lost: no word is written that holds
  something the chip has still to read.
* `completions_read` — in every run whose steps all meet it, the chip has read, whenever nothing is
  left to do, each completion once, with its own reply.
* `two_completions_one_read` — without the condition a completion gets lost.
-/

namespace Expedition

open Function

/-- What the chip's handler has read in one run. -/
structure AckRead where
  type : Word
  ret : Word
  words : List Word
  deriving DecidableEq, Repr

/-- The chip's handler. -/
inductive CollectorPc where
  | idle
  | readType
  | readRet (type : Word)
  | readWords (type ret : Word) (words : List Word)
  deriving DecidableEq, Repr

/-- The host with such a chip.  `out` says for which workers a request is out.  `pending` is the
outcome behind a pulse the chip has not taken, `handling` the one behind the pulse its handler is
at. -/
structure Collecting where
  host : Host
  chip : PosterPc
  out : Worker → Bool
  handler : CollectorPc
  acks : List AckRead
  pending : Option Outcome
  handling : Option Outcome

inductive CollectAct where
  | host (a : HostAct)
  | look
  | argue (r : Request)
  | type
  | edge
  /-- A word of a message. -/
  | scribble (i : Nat) (v : Word)
  | takeAck
  /-- The next access of the chip's handler. -/
  | read
  deriving DecidableEq, Repr

/-- The worker an acknowledge code is of. -/
def ackWorker (type : Word) : Option Worker :=
  ([.term_printf, .term_scanf, .enet_send, .enet_recv, .wireless_send, .wireless_recv, .read_pow].find?
    fun svc : Service => svc.ack = type).map Service.worker

namespace Collecting

/-- The outcome behind the last pulse, after a step of the host. -/
def notePulse (s : Collecting) : HostAct → Option Outcome
  | .work k _ =>
    match s.host.work k with
    | .ackHigh o => some o
    | _ => s.pending
  | _ => s.pending

def step : CollectAct → Collecting → Option Collecting
  | .host a, s => (s.host.step a).map fun h => { s with host := h, pending := s.notePulse a }
  | .look, s =>
    if s.chip = .idle ∧ s.host.shared.mem IO_TYPE = EMPTY_REQ then some { s with chip := .ready }
    else none
  | .argue r, s =>
    match requestService r.code with
    | some svc =>
      if s.chip = .ready ∧ s.out svc.worker = false then
        some { s with chip := .argued r
                      host := if svc.argVar.isSome then
                        ChipAct.apply (.write READBUF_BEGIN r.arg) s.host else s.host }
      else none
    | none => none
  | .type, s =>
    match s.chip with
    | .argued r => some { s with chip := .typed r, host := ChipAct.apply (.write IO_TYPE r.code) s.host
                                 out := fun k => s.out k || (requestService r.code).map Service.worker = some k }
    | _ => none
  | .edge, s =>
    match s.chip with
    | .typed _ => some { s with chip := .idle, host := ChipAct.apply .edge s.host }
    | _ => none
  | .scribble i v, s =>
    if i < BUF_WORDS then some { s with host := ChipAct.apply (.write (writebufAddr i) v) s.host }
    else none
  | .takeAck, s =>
    if s.handler = .idle ∧ s.host.shared.ackPending = true then
      some { s with handler := .readType, host := ChipAct.apply .takeAck s.host, pending := none
                    handling := s.pending }
    else none
  | .read, s =>
    match s.handler with
    | .idle => none
    | .readType => some { s with handler := .readRet (s.host.shared.mem ACK_TYPE) }
    | .readRet t => some { s with handler := .readWords t (s.host.shared.mem ACK_RETURN_VAL) [] }
    | .readWords t r ws =>
      if ws.length < BUF_WORDS then
        some { s with handler := .readWords t r (ws ++ [s.host.shared.mem (readbufAddr ws.length)]) }
      else
        some { s with handler := .idle, acks := ⟨t, r, ws⟩ :: s.acks, handling := none
                      out := fun k => s.out k && !(ackWorker t = some k) }

/-- A step of the chip, by what it finds. -/
inductive ChipStep : CollectAct → Collecting → Collecting → Prop where
  | look {s : Collecting} (hchip : s.chip = .idle) (hempty : s.host.shared.mem IO_TYPE = EMPTY_REQ) :
      ChipStep .look s { s with chip := .ready }
  | argue {s : Collecting} {r : Request} {svc : Service} (hsvc : requestService r.code = some svc)
      (hchip : s.chip = .ready) (hout : s.out svc.worker = false) :
      ChipStep (.argue r) s { s with
        chip := .argued r
        host := if svc.argVar.isSome then ChipAct.apply (.write READBUF_BEGIN r.arg) s.host else s.host }
  | type {s : Collecting} {r : Request} (hchip : s.chip = .argued r) :
      ChipStep .type s { s with
        chip := .typed r
        host := ChipAct.apply (.write IO_TYPE r.code) s.host
        out := fun k => s.out k || (requestService r.code).map Service.worker = some k }
  | edge {s : Collecting} {r : Request} (hchip : s.chip = .typed r) :
      ChipStep .edge s { s with chip := .idle, host := ChipAct.apply .edge s.host }
  | scribble {s : Collecting} {i : Nat} {v : Word} (hi : i < BUF_WORDS) :
      ChipStep (.scribble i v) s { s with host := ChipAct.apply (.write (writebufAddr i) v) s.host }
  | takeAck {s : Collecting} (hidle : s.handler = .idle) (hpend : s.host.shared.ackPending = true) :
      ChipStep .takeAck s { s with
        handler := .readType, host := ChipAct.apply .takeAck s.host, pending := none
        handling := s.pending }
  | readType {s : Collecting} (hpc : s.handler = .readType) :
      ChipStep .read s { s with handler := .readRet (s.host.shared.mem ACK_TYPE) }
  | readRet {s : Collecting} {t : Word} (hpc : s.handler = .readRet t) :
      ChipStep .read s { s with handler := .readWords t (s.host.shared.mem ACK_RETURN_VAL) [] }
  | readWord {s : Collecting} {t r : Word} {ws : List Word} (hpc : s.handler = .readWords t r ws)
      (hlen : ws.length < BUF_WORDS) :
      ChipStep .read s { s with
        handler := .readWords t r (ws ++ [s.host.shared.mem (readbufAddr ws.length)]) }
  | readDone {s : Collecting} {t r : Word} {ws : List Word} (hpc : s.handler = .readWords t r ws)
      (hlen : ¬ ws.length < BUF_WORDS) :
      ChipStep .read s { s with
        handler := .idle, acks := ⟨t, r, ws⟩ :: s.acks, handling := none
        out := fun k => s.out k && !(ackWorker t = some k) }

theorem chipStep {a : CollectAct} {s s' : Collecting} (ha : ∀ b, a ≠ .host b) (h : step a s = some s') :
    ChipStep a s s' := by
  cases a with
  | host b => exact absurd rfl (ha b)
  | look =>
    simp only [step] at h
    split at h <;> cases h
    rename_i hguard
    exact .look hguard.1 hguard.2
  | argue r =>
    simp only [step] at h
    split at h
    · rename_i svc hsvc
      split at h <;> cases h
      rename_i hguard
      exact .argue hsvc hguard.1 hguard.2
    · cases h
  | type =>
    simp only [step] at h
    split at h <;> cases h
    rename_i r hchip
    exact .type hchip
  | edge =>
    simp only [step] at h
    split at h <;> cases h
    rename_i r hchip
    exact .edge hchip
  | scribble i v =>
    simp only [step] at h
    split at h <;> cases h
    rename_i hi
    exact .scribble hi
  | takeAck =>
    simp only [step] at h
    split at h <;> cases h
    rename_i hguard
    exact .takeAck hguard.1 hguard.2
  | read =>
    simp only [step] at h
    split at h
    · cases h
    · rename_i hpc
      cases h
      exact .readType hpc
    · rename_i t hpc
      cases h
      exact .readRet hpc
    · rename_i t r ws hpc
      split at h <;> cases h
      · rename_i hlen
        exact .readWord hpc hlen
      · rename_i hlen
        exact .readDone hpc hlen

structure Fresh (s : Collecting) : Prop where
  host : s.host.Fresh
  slot : s.host.shared.mem IO_TYPE = EMPTY_REQ
  chip : s.chip = .idle
  out : ∀ k, s.out k = false
  handler : s.handler = .idle
  acks : s.acks = []
  pending : s.pending = none
  handling : s.handling = none

def machine : Machine Collecting CollectAct where
  start := Fresh
  step := step

end Collecting

/-! ## What the chip is to read -/

/-- The requests completed, with their outcomes, newest first. -/
def completions (log : List Event) : List Outcome :=
  log.filterMap fun
    | .ret _ _ o => some o
    | _ => none

/-- What was read is the code, the return value and, if there is one, the reply of the outcome. -/
def AckRead.Of (a : AckRead) (o : Outcome) : Prop :=
  a.type = o.svc.ack ∧ a.ret = o.rtn ∧ ∀ reply, o.reply = some reply → unpack a.words = reply

namespace Collecting

/-- Every completion has been read exactly once, and nothing else has. -/
def Delivered (s : Collecting) : Prop :=
  ∃ l, l.Perm (completions s.host.shared.log) ∧ List.Forall₂ AckRead.Of s.acks l

/-- Nothing is left to do: no edge, no signal and no acknowledge is pending, and every thread of the
host and the chip's handler wait. -/
structure Quiescent (s : Collecting) : Prop where
  irq : s.host.irq = false
  flag : s.host.shared.flag .dispatch = false ∧ ∀ k, s.host.shared.flag (.work k) = false
  dispatch : s.host.dispatch = .wait
  work : ∀ k, s.host.work k = .wait
  ack : s.host.shared.ackPending = false
  handler : s.handler = .idle

end Collecting

/-! ## The condition -/

/-- The words of an outcome's reply. -/
def Outcome.words (o : Outcome) : List Word :=
  match o.reply with
  | some reply => packWords BUF_WORDS reply
  | none => []

/-- The words of its reply a worker has put in READBUF and not acknowledged yet. -/
def WorkPc.written : WorkPc → List Word
  | rbWrite _ reply i _ => (packWords BUF_WORDS reply).take i
  | outerUnlock o | leave o | ackLock o | ackRet o | ackType o | ackHigh o => o.words
  | _ => []

/-- The words of READBUF the chip's handler has read. -/
def CollectorPc.wordsRead : CollectorPc → Nat
  | readWords _ _ ws => ws.length
  | _ => 0

namespace Collecting

/-- Word `i` of READBUF holds nothing the chip has still to read. -/
def Spent (s : Collecting) (i : Nat) : Prop :=
  (∀ k, (s.host.work k).written.length ≤ i) ∧ (∀ o ∈ s.pending, o.words.length ≤ i) ∧
    ∀ o ∈ s.handling, o.words.length ≤ i ∨ i < s.handler.wordsRead

/-- The chip has read the code and the return value of every pulse. -/
def Clear (s : Collecting) : Prop :=
  s.host.shared.ackPending = false ∧ s.handler ≠ .readType ∧ ∀ t, s.handler ≠ .readRet t

/-- The word at the address holds nothing the chip has still to read.  ACK_RETURN_VAL is the last
word of READBUF too. -/
def MayWrite (s : Collecting) (a : Word) : Prop :=
  (a = ACK_RETURN_VAL → s.Clear) ∧ ∀ i < BUF_WORDS, a = readbufAddr i → s.Spent i

/-- The condition on a step: what it writes over has been read. -/
def KeepsUnread : CollectAct → Collecting → Prop
  | .host (.work k _), s =>
    match (s.host.work k).code k with
    | .writeMemory a _ _ => s.MayWrite a
    | _ => True
  | .argue r, s => ((requestService r.code).bind Service.argVar).isSome = true →
      s.MayWrite READBUF_BEGIN
  | _, _ => True

end Collecting

/-! ## Words of READBUF -/

/-- From index `n` on the words are in READBUF. -/
def Holds (mem : Word → Word) (ws : List Word) (n : Nat) : Prop :=
  ∀ j w, n ≤ j → ws[j]? = some w → mem (readbufAddr j) = w

theorem Holds.update {mem : Word → Word} {ws : List Word} {n : Nat} {a v : Word}
    (h : Holds mem ws n) (hlen : ws.length ≤ BUF_WORDS)
    (ha : ∀ i < BUF_WORDS, a = readbufAddr i → ws.length ≤ i ∨ i < n) :
    Holds (update mem a v) ws n := by
  intro j w hj hw
  have hlt := (List.getElem?_eq_some_iff.mp hw).1
  have hne : readbufAddr j ≠ a := by
    intro he
    rcases ha j (by omega) he.symm with h | h <;> omega
  rw [update_of_ne hne]
  exact h j w hj hw

theorem Holds.nil (mem : Word → Word) (n : Nat) : Holds mem [] n := by
  intro j w _ hw
  cases hw

theorem Outcome.words_length (o : Outcome) : o.words.length ≤ BUF_WORDS := by
  unfold words
  split
  · exact length_packWords_le _ _
  · exact Nat.zero_le _

theorem WorkPc.written_length (p : WorkPc) : p.written.length ≤ BUF_WORDS := by
  cases p with
  | rbWrite svc reply i ws =>
    have := length_packWords_le BUF_WORDS reply
    simp only [written, List.length_take]
    omega
  | outerUnlock o | leave o | ackLock o | ackRet o | ackType o | ackHigh o => exact o.words_length
  | _ => exact Nat.zero_le _

/-- A reply of more than 119 bytes takes all words of READBUF. -/
theorem length_of_words {reply : List Byte} (h : (packWords BUF_WORDS reply).length ≤ 30) :
    reply.length < 4 * BUF_WORDS := by
  have hlong : ∀ n (s : List Byte), 4 * n ≤ s.length → (packWords n s).length = n := by
    intro n
    induction n with
    | zero => intro s _; rfl
    | succ n ih =>
      intro s hs
      rw [packWords, if_neg (by omega), List.length_cons, ih (s.drop 4) (by rw [List.length_drop]; omega)]
  by_contra hlt
  have := hlong BUF_WORDS reply (by omega)
  rw [this] at h
  exact absurd h (by decide)

/-- The reply can be read back from the words of READBUF. -/
structure Outcome.Printable (o : Outcome) : Prop where
  room : o.words.length ≤ 30
  text : ∀ reply, o.reply = some reply → ∀ b ∈ reply, b ≠ 0

theorem Outcome.Printable.unpack {o : Outcome} (h : o.Printable) {ws : List Word}
    (hws : ∀ (j : Nat) w, o.words[j]? = some w → ws[j]? = some w) {reply : List Byte}
    (hr : o.reply = some reply) : unpack ws = reply := by
  have hwords : o.words = packWords BUF_WORDS reply := by simp only [Outcome.words, hr]
  have hlen : reply.length < 4 * BUF_WORDS := length_of_words (by rw [← hwords]; exact h.room)
  rw [hwords] at hws
  exact unpack_of_words BUF_WORDS reply (h.text reply hr) hlen hws

/-! ## The workers -/

/-- The reply a worker carries. -/
def WorkPc.reply? : WorkPc → Option (List Byte)
  | powUnlock reply | rbLock _ reply | rbWrite _ reply _ _ => some reply
  | outerUnlock o | leave o | ackLock o | ackRet o | ackType o | ackHigh o => o.reply
  | _ => none

/-- What a worker has prepared for the chip.  `clear` is that the chip has read the last pulse. -/
structure Prepared (mem : Word → Word) (clear : Prop) (p : WorkPc) : Prop where
  text : ∀ reply, p.reply? = some reply → ∀ b ∈ reply, b ≠ 0
  written : Holds mem p.written 0
  ret : ∀ o, p.publishing = some o → p.retWritten = true →
    mem ACK_RETURN_VAL = o.rtn ∧ o.words.length ≤ 30 ∧ clear
  type : ∀ o, p.publishing = some o → p.typeWritten = true → mem ACK_TYPE = o.svc.ack

theorem WorkPc.next_reply {k : Worker} {p q : WorkPc} (h : (p.code k).Next q) :
    q.reply? = none ∨ q.reply? = p.reply? ∨ ∃ svc arg data, q.reply? = some (Service.received svc arg data) := by
  cases goes h with
  | choose v => rcases ofType_cases k v with ⟨svc, -, h | h | h⟩ | ⟨m, h⟩ <;> rw [h] <;> exact .inl rfl
  | measured arg data => exact .inr (.inr ⟨_, arg, data, rfl⟩)
  | got svc arg data => exact .inr (.inr ⟨svc, arg, data, rfl⟩)
  | powUnlock | rbLock | rbWrite | scanned | copied | outerUnlock | leave | ackLock | ackRet
  | ackType => exact .inr (.inl rfl)
  | _ => exact .inl rfl

/-- Where nothing is written to READBUF, the words a worker has there stay or are given up. -/
theorem WorkPc.next_written {k : Worker} {p q : WorkPc} (h : (p.code k).Next q) (hp : p.InOrder)
    (hrb : ∀ svc reply i w ws, p ≠ .rbWrite svc reply i (w :: ws)) :
    q.written = [] ∨ q.written = p.written := by
  -- with nothing left to write all words of the reply are there
  have hall : ∀ {reply : List Byte} {i : Nat}, [] = (packWords BUF_WORDS reply).drop i →
      packWords BUF_WORDS reply = (packWords BUF_WORDS reply).take i := by
    intro reply i hdrop
    have hlen := List.drop_eq_nil_iff.mp hdrop.symm
    exact (List.take_of_length_le hlen).symm
  cases goes h with
  | choose v => rcases ofType_cases k v with ⟨svc, -, h | h | h⟩ | ⟨m, h⟩ <;> rw [h] <;> exact .inl rfl
  | rbLock svc reply => exact .inl rfl
  | rbWrite svc reply i w ws => exact absurd rfl (hrb svc reply i w ws)
  | scanned reply i => exact .inr (hall hp)
  | copied svc reply i => exact .inr (hall hp)
  | outerUnlock | leave | ackLock | ackRet | ackType => exact .inr rfl
  | _ => exact .inl rfl

theorem Prepared.text_next {mem : Word → Word} {clear : Prop} {k : Worker} {p q : WorkPc}
    (hp : Prepared mem clear p) (h : (p.code k).Next q) :
    ∀ reply, q.reply? = some reply → ∀ b ∈ reply, b ≠ 0 := by
  intro reply hq
  rcases WorkPc.next_reply h with hn | hn | ⟨svc, arg, data, hn⟩
  · rw [hn] at hq; cases hq
  · exact hp.text reply (hn ▸ hq)
  · rw [hn] at hq
    cases hq
    exact received_text svc arg data

/-- A worker's step that writes nothing. -/
theorem Prepared.next {mem : Word → Word} {clear : Prop} {k : Worker} {p q : WorkPc}
    (hp : Prepared mem clear p) (h : (p.code k).Next q) (hin : p.InOrder)
    (hnot : ∀ a v n, p.code k ≠ .writeMemory a v n) : Prepared mem clear q := by
  have hwritten : Holds mem q.written 0 := by
    rcases WorkPc.next_written h hin (fun svc reply i w ws he => by subst he; exact hnot _ _ _ rfl)
      with hq | hq
    · rw [hq]; exact .nil _ _
    · rw [hq]; exact hp.written
  have hret : q.retWritten = false := by
    cases WorkPc.goes h with
    | choose v =>
      rcases WorkPc.ofType_cases k v with ⟨svc, -, h | h | h⟩ | ⟨m, h⟩ <;> rw [h] <;> rfl
    | ackRet o => exact absurd rfl (hnot _ _ _)
    | ackType o => exact absurd rfl (hnot _ _ _)
    | _ => rfl
  have htype : q.typeWritten = false := by
    cases q <;> first | rfl | cases hret
  refine ⟨hp.text_next h, hwritten, fun o _ hr => ?_, fun o _ hr => ?_⟩
  · rw [hret] at hr; cases hr
  · rw [htype] at hr; cases hr

/-- One more word of the reply is in READBUF. -/
theorem Prepared.write_word {mem : Word → Word} {clear : Prop} {svc : Service} {reply : List Byte} {i : Nat}
    {w : Word} {ws : List Word} (hp : Prepared mem clear (.rbWrite svc reply i (w :: ws)))
    (hin : w :: ws = (packWords BUF_WORDS reply).drop i) :
    Prepared (update mem (readbufAddr i) w) clear (.rbWrite svc reply (i + 1) ws) := by
  obtain ⟨hget, hi⟩ := packWords_of_drop hin
  have hbelow : ∀ j w', j < i → (packWords BUF_WORDS reply)[j]? = some w' → mem (readbufAddr j) = w' := by
    intro j w' hj hw'
    refine hp.written j w' (Nat.zero_le j) ?_
    simp only [WorkPc.written, List.getElem?_take]
    rwa [if_pos hj]
  refine ⟨hp.text, fun j w' _ hw' => ?_, (fun _ h => nomatch h), (fun _ h => nomatch h)⟩
  simp only [WorkPc.written, List.getElem?_take] at hw'
  split at hw'
  · rename_i hj
    exact readbuf_written hi hget hbelow j w' hj hw'
  · cases hw'

/-- The return value is written where the reply leaves its word free. -/
theorem Prepared.write_ret {mem : Word → Word} {clear : Prop} {o : Outcome}
    (hp : Prepared mem clear (.ackRet o)) (hroom : o.words.length ≤ 30) (hclear : clear)
    (hspent : ∀ i < BUF_WORDS, ACK_RETURN_VAL = readbufAddr i → o.words.length ≤ i) :
    Prepared (update mem ACK_RETURN_VAL o.rtn) clear (.ackType o) := by
  refine ⟨hp.text, hp.written.update o.words_length fun i hi he => .inl (hspent i hi he),
    fun o' ho _ => ?_, (fun _ _ h => nomatch h)⟩
  cases ho
  exact ⟨update_self .., hroom, hclear⟩

/-- ACK_TYPE is the word after READBUF. -/
theorem ack_type_ne_readbufAddr {i : Nat} (hi : i < BUF_WORDS) : ACK_TYPE ≠ readbufAddr i := by
  intro he
  have := readbufAddr_inj (i := 31) (by decide) (Nat.lt_succ_of_lt hi) he
  exact absurd this.symm (Nat.ne_of_lt hi)

/-- Then the code. -/
theorem Prepared.write_type {mem : Word → Word} {clear : Prop} {o : Outcome}
    (hp : Prepared mem clear (.ackType o)) :
    Prepared (update mem ACK_TYPE o.svc.ack) clear (.ackHigh o) := by
  obtain ⟨hret, hroom, hclear⟩ := hp.ret o rfl rfl
  have hne : ACK_RETURN_VAL ≠ ACK_TYPE := by decide
  refine ⟨hp.text,
    hp.written.update o.words_length fun i hi he => absurd he (ack_type_ne_readbufAddr hi),
    fun o' ho _ => ?_, fun o' ho _ => ?_⟩
  · cases ho
    rw [update_of_ne hne]
    exact ⟨hret, hroom, hclear⟩
  · cases ho
    exact update_self ..

/-- Another's write leaves what a worker has prepared. -/
theorem Prepared.other {mem : Word → Word} {clear : Prop} {p : WorkPc} {a v : Word}
    (hp : Prepared mem clear p) (hspent : ∀ i < BUF_WORDS, a = readbufAddr i → p.written.length ≤ i)
    (hout : p.inJTAG = true → a ≠ ACK_RETURN_VAL ∧ a ≠ ACK_TYPE) :
    Prepared (update mem a v) clear p := by
  refine ⟨hp.text, hp.written.update p.written_length fun i hi he => .inl (hspent i hi he),
    fun o ho hr => ?_, fun o ho hr => ?_⟩
  · rw [update_of_ne (Ne.symm (hout (WorkPc.inJTAG_of_written (.inl hr))).1)]
    exact hp.ret o ho hr
  · rw [update_of_ne (Ne.symm (hout (WorkPc.inJTAG_of_written (.inr hr))).2)]
    exact hp.type o ho hr

/-- A worker that has not begun its acknowledge does not need the chip to be ready for it. -/
theorem Prepared.weaken {mem : Word → Word} {c c' : Prop} {p : WorkPc} (hp : Prepared mem c p)
    (hc : c → c') : Prepared mem c' p := by
  refine ⟨hp.text, hp.written, fun o ho hr => ?_, hp.type⟩
  obtain ⟨hret, hroom, hclear⟩ := hp.ret o ho hr
  exact ⟨hret, hroom, hc hclear⟩

/-! ## The chip's side -/

/-- The outcome is behind a pulse: what the chip finds is its code, its return value and its reply. -/
structure Outcome.Posted (o : Outcome) (mem : Word → Word) : Prop where
  printable : o.Printable
  type : mem ACK_TYPE = o.svc.ack
  ret : mem ACK_RETURN_VAL = o.rtn
  words : Holds mem o.words 0

/-- What the chip's handler has read and is to read are the outcome's. -/
inductive Reading (mem : Word → Word) : CollectorPc → Option Outcome → Prop where
  | idle : Reading mem .idle none
  | readType {o : Outcome} (h : o.Posted mem) : Reading mem .readType (some o)
  | readRet {o : Outcome} (h : o.Posted mem) : Reading mem (.readRet o.svc.ack) (some o)
  | readWords {o : Outcome} {ws : List Word} (h : o.Printable) (hlen : ws.length ≤ BUF_WORDS)
      (hread : ∀ (j : Nat) w, j < ws.length → o.words[j]? = some w → ws[j]? = some w)
      (hmem : Holds mem o.words ws.length) : Reading mem (.readWords o.svc.ack o.rtn ws) (some o)

theorem Outcome.Posted.update {o : Outcome} {mem : Word → Word} {a v : Word} (h : o.Posted mem)
    (hack : a ≠ ACK_RETURN_VAL ∧ a ≠ ACK_TYPE)
    (hspent : ∀ i < BUF_WORDS, a = readbufAddr i → o.words.length ≤ i) :
    o.Posted (update mem a v) := by
  refine ⟨h.printable, ?_, ?_, h.words.update o.words_length fun i hi he => .inl (hspent i hi he)⟩
  · rw [update_of_ne (Ne.symm hack.2)]; exact h.type
  · rw [update_of_ne (Ne.symm hack.1)]; exact h.ret

theorem Reading.update {mem : Word → Word} {pc : CollectorPc} {ho : Option Outcome} {a v : Word}
    (h : Reading mem pc ho)
    (hack : pc = .readType ∨ (∃ t, pc = .readRet t) → a ≠ ACK_RETURN_VAL ∧ a ≠ ACK_TYPE)
    (hspent : ∀ i < BUF_WORDS, a = readbufAddr i →
      ∀ o ∈ ho, o.words.length ≤ i ∨ i < pc.wordsRead) :
    Reading (update mem a v) pc ho := by
  have hnone : ∀ {o : Outcome}, ho = some o → pc.wordsRead = 0 →
      ∀ i < BUF_WORDS, a = readbufAddr i → o.words.length ≤ i := by
    intro o ho' hzero i hi he
    rcases hspent i hi he o ho' with h | h
    · exact h
    · omega
  cases h with
  | idle => exact .idle
  | readType h => exact .readType (h.update (hack (.inl rfl)) (hnone rfl rfl))
  | readRet h => exact .readRet (h.update (hack (.inr ⟨_, rfl⟩)) (hnone rfl rfl))
  | @readWords o ws h hlen hread hmem =>
    exact .readWords h hlen hread (hmem.update o.words_length fun i hi he => hspent i hi he o rfl)

namespace Collecting

/-- What is prepared, pending and being read, and that nothing is lost. -/
structure Kept (s : Collecting) : Prop where
  prepared : ∀ k, Prepared s.host.shared.mem s.Clear (s.host.work k)
  flag : s.host.shared.ackPending = true ↔ s.pending ≠ none
  pending : ∀ o, s.pending = some o → o.Posted s.host.shared.mem
  reading : Reading s.host.shared.mem s.handler s.handling
  /-- A pulse does not come before the chip has read code and return value of the last one. -/
  spaced : s.handler = .readType ∨ (∃ t, s.handler = .readRet t) → s.pending = none

/-- A write of a word that is spent. -/
theorem Kept.write {s : Collecting} (hs : Kept s) {a v : Word}
    (hack : a = ACK_RETURN_VAL ∨ a = ACK_TYPE → s.Clear)
    (hspent : ∀ i < BUF_WORDS, a = readbufAddr i → s.Spent i) :
    (∀ o, s.pending = some o → o.Posted (update s.host.shared.mem a v)) ∧
      Reading (update s.host.shared.mem a v) s.handler s.handling := by
  refine ⟨fun o ho => ?_, ?_⟩
  · refine (hs.pending o ho).update ?_ fun i hi he => (hspent i hi he).2.1 o ho
    have hpend : s.host.shared.ackPending = true := hs.flag.mpr (by rw [ho]; simp)
    refine ⟨fun h => ?_, fun h => ?_⟩
    · exact absurd ((hack (.inl h)).1.symm.trans hpend) (by simp)
    · exact absurd ((hack (.inr h)).1.symm.trans hpend) (by simp)
  · refine hs.reading.update (fun hpc => ?_) fun i hi he => (hspent i hi he).2.2
    have hnot : ¬ s.Clear := by
      rintro ⟨-, h1, h2⟩
      rcases hpc with h | ⟨t, h⟩
      · exact h1 h
      · exact h2 t h
    exact ⟨fun h => hnot (hack (.inl h)), fun h => hnot (hack (.inr h))⟩

/-- The state after a step of worker `k`. -/
def afterWork (s : Collecting) (k : Worker) (sh : Shared) (q : WorkPc) (p : Option Outcome) :
    Collecting :=
  { s with host := { s.host with shared := sh, work := update s.host.work k q }, pending := p }

theorem clear_iff {s : Collecting} {k : Worker} {sh : Shared} {q : WorkPc} {p : Option Outcome}
    (h : sh.ackPending = s.host.shared.ackPending) : (s.afterWork k sh q p).Clear = s.Clear := by
  unfold Clear afterWork
  rw [h]

/-- A worker's write, to a word that is spent, of what it is to prepare. -/
theorem Kept.work_write {s : Collecting} (hs : Kept s) (hj : s.host.Held .JTAG) {k : Worker}
    {sh : Shared} {q : WorkPc} {a v : Word} (hk : (s.host.work k).inJTAG = true)
    (hsh : sh.mem = update s.host.shared.mem a v)
    (hpend : sh.ackPending = s.host.shared.ackPending)
    (hack : a = ACK_RETURN_VAL ∨ a = ACK_TYPE → s.Clear)
    (hspent : ∀ i < BUF_WORDS, a = readbufAddr i → s.Spent i)
    (hown : Prepared (update s.host.shared.mem a v) s.Clear q) :
    Kept (s.afterWork k sh q s.pending) := by
  obtain ⟨hpending, hreading⟩ := hs.write (v := v) hack hspent
  refine ⟨fun k' => ?_, ?_, fun o ho => ?_, ?_, hs.spaced⟩
  · rw [clear_iff hpend]
    show Prepared sh.mem s.Clear (update s.host.work k q k')
    rw [hsh]
    by_cases hkk : k' = k
    · subst hkk
      rw [update_self]
      exact hown
    · rw [update_of_ne hkk]
      refine (hs.prepared k').other (fun i hi he => (hspent i hi he).1 k') fun hin => ?_
      exact absurd (hj.worker_unique (m := .JTAG) hin hk) hkk
  · show sh.ackPending = true ↔ _
    rw [hpend]; exact hs.flag
  · show o.Posted sh.mem
    rw [hsh]; exact hpending o ho
  · show Reading sh.mem _ _
    rw [hsh]; exact hreading

/-- A worker's step that neither writes nor pulses. -/
theorem Kept.work_quiet {s : Collecting} (hs : Kept s) {k : Worker} {sh : Shared} {q : WorkPc}
    (hmem : sh.mem = s.host.shared.mem) (hpend : sh.ackPending = s.host.shared.ackPending)
    (hown : Prepared s.host.shared.mem s.Clear q) : Kept (s.afterWork k sh q s.pending) := by
  refine ⟨fun k' => ?_, ?_, fun o ho => ?_, ?_, hs.spaced⟩
  · rw [clear_iff hpend]
    show Prepared sh.mem s.Clear (update s.host.work k q k')
    rw [hmem]
    by_cases hkk : k' = k
    · subst hkk
      rw [update_self]
      exact hown
    · rw [update_of_ne hkk]
      exact hs.prepared k'
  · show sh.ackPending = true ↔ _
    rw [hpend]; exact hs.flag
  · show o.Posted sh.mem
    rw [hmem]; exact hs.pending o ho
  · show Reading sh.mem _ _
    rw [hmem]; exact hs.reading

/-- The pulse: what the worker has prepared is behind it. -/
theorem Kept.pulse {s : Collecting} (hs : Kept s) (hj : s.host.Held .JTAG) {k : Worker} {o : Outcome}
    (hk : s.host.work k = .ackHigh o) {sh : Shared} (hmem : sh.mem = s.host.shared.mem)
    (hack : sh.ackPending = true) : Kept (s.afterWork k sh (.ackLow o) (some o)) := by
  have hprep := hs.prepared k
  rw [hk] at hprep
  obtain ⟨hret, hroom, hclear⟩ := hprep.ret o rfl rfl
  refine ⟨fun k' => ?_, ?_, fun o' ho => ?_, ?_, fun hpc => ?_⟩
  · show Prepared sh.mem _ (update s.host.work k (.ackLow o) k')
    rw [hmem]
    by_cases hkk : k' = k
    · subst hkk
      rw [update_self]
      exact ⟨(fun _ h => nomatch h), .nil _ _, (fun _ h => nomatch h), (fun _ h => nomatch h)⟩
    · rw [update_of_ne hkk]
      have hother := hs.prepared k'
      refine ⟨hother.text, hother.written, fun o' _ hr => ?_, hother.type⟩
      have hin := WorkPc.inJTAG_of_written (.inl hr)
      exact absurd (hj.worker_unique (m := .JTAG) hin (by rw [hk]; rfl)) hkk
  · show sh.ackPending = true ↔ some o ≠ none
    simp [hack]
  · show o'.Posted sh.mem
    cases ho
    rw [hmem]
    exact ⟨⟨hroom, hprep.text⟩, hprep.type o rfl rfl, hret, hprep.written⟩
  · show Reading sh.mem _ _
    rw [hmem]; exact hs.reading
  · rcases hpc with h | ⟨t, h⟩
    · exact absurd h hclear.2.1
    · exact absurd h (hclear.2.2 t)

/-- **A worker's step keeps what the chip has still to read.** -/
theorem Kept.work {s : Collecting} (hs : Kept s) (hj : s.host.Held .JTAG) (hpl : s.host.Placed)
    {k : Worker} {ans : Answer} {sh : Shared} {q : WorkPc}
    (hok : KeepsUnread (.host (.work k ans)) s)
    (he : ((s.host.work k).code k).exec (.work k) ans s.host.shared = some (sh, q)) :
    Kept (s.afterWork k sh q (s.notePulse (.work k ans))) := by
  have hprep := hs.prepared k
  have hin := (hpl k).inOrder
  cases hp : s.host.work k with
  | rbWrite svc reply i ws =>
    have hpulse : s.notePulse (.work k ans) = s.pending := by simp only [notePulse, hp]
    rw [hp] at he hprep hin
    rw [hpulse]
    cases ws with
    | nil =>
      have hnext := Instr.exec_next he
      cases he
      exact hs.work_quiet rfl rfl (hprep.next hnext hin (fun _ _ _ h => nomatch h))
    | cons w ws =>
      have hmay : s.MayWrite (readbufAddr i) := by simpa only [KeepsUnread, hp, WorkPc.code] using hok
      have hi := (packWords_of_drop hin).2
      cases he
      refine hs.work_write hj (by rw [hp]; rfl) rfl rfl ?_ hmay.2 (hprep.write_word hin)
      rintro (h | h)
      · exact hmay.1 h
      · exact absurd h.symm (ack_type_ne_readbufAddr hi)
  | ackRet o =>
    have hmay : s.MayWrite ACK_RETURN_VAL := by simpa only [KeepsUnread, hp, WorkPc.code] using hok
    have hspent : ∀ i < BUF_WORDS, ACK_RETURN_VAL = readbufAddr i → o.words.length ≤ i := by
      intro i hi he
      have := (hmay.2 i hi he).1 k
      rwa [hp] at this
    have hpulse : s.notePulse (.work k ans) = s.pending := by simp only [notePulse, hp]
    rw [hp] at he hprep
    rw [hpulse]
    cases he
    exact hs.work_write hj (by rw [hp]; rfl) rfl rfl (fun _ => hmay.1 rfl) hmay.2
      (hprep.write_ret (hspent 30 (by decide) (by decide)) (hmay.1 rfl) hspent)
  | ackType o =>
    have hpulse : s.notePulse (.work k ans) = s.pending := by simp only [notePulse, hp]
    rw [hp] at he hprep
    rw [hpulse]
    obtain ⟨-, -, hclear⟩ := hprep.ret o rfl rfl
    cases he
    exact hs.work_write hj (by rw [hp]; rfl) rfl rfl (fun _ => hclear)
      (fun i hi he => absurd he (ack_type_ne_readbufAddr hi)) hprep.write_type
  | ackHigh o =>
    have hpulse : s.notePulse (.work k ans) = some o := by simp only [notePulse, hp]
    rw [hp] at he
    rw [hpulse]
    cases he
    exact hs.pulse hj hp rfl rfl
  | _ =>
    have hpulse : s.notePulse (.work k ans) = s.pending := by simp only [notePulse, hp]
    have hnot : ∀ a v n, (s.host.work k).code k ≠ .writeMemory a v n := by
      rw [hp]
      intro a v n h
      cases h
    have hmem : sh.mem = s.host.shared.mem := by
      funext a
      exact Instr.exec_mem a he (hnot a)
    have hpend := Instr.exec_ackPending he (WorkPc.code_ne_pulse (by rw [hp]; simp))
    rw [hpulse]
    exact hs.work_quiet hmem hpend (hprep.next (Instr.exec_next he) hin hnot)

/-- A step of the chip or the dispatcher that at most writes a word that is spent, and none of the two
acknowledge words. -/
theorem Kept.memory {s s' : Collecting} (hs : Kept s) {a v : Word}
    (hmem : s'.host.shared.mem = update s.host.shared.mem a v) (hwork : s'.host.work = s.host.work)
    (hflag : s'.host.shared.ackPending = s.host.shared.ackPending)
    (hchip : s'.handler = s.handler ∧ s'.pending = s.pending ∧ s'.handling = s.handling)
    (hne : a ≠ ACK_RETURN_VAL ∧ a ≠ ACK_TYPE)
    (hspent : ∀ i < BUF_WORDS, a = readbufAddr i → s.Spent i) : Kept s' := by
  obtain ⟨hhandler, hpending, hhandling⟩ := hchip
  have hclear : s'.Clear = s.Clear := by
    unfold Clear
    rw [hflag, hhandler]
  have hack : a = ACK_RETURN_VAL ∨ a = ACK_TYPE → s.Clear :=
    fun h => (h.elim (fun h => hne.1 h) fun h => hne.2 h).elim
  obtain ⟨hpost, hread⟩ := hs.write (v := v) hack hspent
  refine ⟨fun k => ?_, ?_, fun o ho => ?_, ?_, ?_⟩
  · rw [hclear, hmem, hwork]
    exact (hs.prepared k).other (fun i hi he => (hspent i hi he).1 k) fun _ => hne
  · rw [hflag, hpending]; exact hs.flag
  · rw [hmem]; exact hpost o (hpending ▸ ho)
  · rw [hmem, hhandler, hhandling]; exact hread
  · rw [hhandler, hpending]; exact hs.spaced

/-- A step that writes nothing at all. -/
theorem Kept.same {s s' : Collecting} (hs : Kept s) (hmem : s'.host.shared.mem = s.host.shared.mem)
    (hwork : s'.host.work = s.host.work)
    (hflag : s'.host.shared.ackPending = s.host.shared.ackPending)
    (hchip : s'.handler = s.handler ∧ s'.pending = s.pending ∧ s'.handling = s.handling) :
    Kept s' := by
  have hio : ∀ i < BUF_WORDS, IO_TYPE ≠ readbufAddr i := by decide
  refine hs.memory (a := IO_TYPE) (v := s.host.shared.mem IO_TYPE) ?_ hwork hflag hchip (by decide)
    fun i hi he => absurd he (hio i hi)
  rw [hmem, update_eq_self]

theorem Kept.dispatch {s : Collecting} (hs : Kept s) {ans : Answer} {h : Host}
    (he : s.host.step (.dispatch ans) = some h) : Kept { s with host := h } := by
  simp only [Host.step, Option.map_eq_some_iff] at he
  obtain ⟨⟨sh, p⟩, he, rfl⟩ := he
  have hflag : sh.ackPending = s.host.shared.ackPending := by
    refine Instr.exec_ackPending he fun n hn => ?_
    generalize s.host.dispatch = d at hn
    cases d <;> cases hn
  by_cases hclear : ∃ type val, s.host.dispatch = .clear type val
  · obtain ⟨type, val, hd⟩ := hclear
    have hio : ∀ i < BUF_WORDS, IO_TYPE ≠ readbufAddr i := by decide
    rw [hd] at he
    cases he
    exact hs.memory (a := IO_TYPE) (v := EMPTY_REQ) rfl rfl rfl ⟨rfl, rfl, rfl⟩ (by decide)
      fun i hi he => absurd he (hio i hi)
  · refine hs.same ?_ rfl hflag ⟨rfl, rfl, rfl⟩
    funext a
    refine Instr.exec_mem a he fun v n hn => ?_
    cases hd : s.host.dispatch with
    | clear type val => exact hclear ⟨type, val, hd⟩
    | _ => rw [hd] at hn; cases hn

/-- The outcome behind the pulse whose code the chip is to read. -/
theorem Kept.at_readType {s : Collecting} (hs : Kept s) (hpc : s.handler = .readType) :
    ∃ o : Outcome, s.handling = some o ∧ o.Posted s.host.shared.mem := by
  have hread := hs.reading
  rw [hpc] at hread
  generalize s.handling = ho at hread ⊢
  cases hread with
  | readType h => exact ⟨_, rfl, h⟩

theorem Kept.at_readRet {s : Collecting} (hs : Kept s) {t : Word} (hpc : s.handler = .readRet t) :
    ∃ o : Outcome, s.handling = some o ∧ o.Posted s.host.shared.mem ∧ t = o.svc.ack := by
  have hread := hs.reading
  rw [hpc] at hread
  generalize s.handling = ho at hread ⊢
  cases hread with
  | readRet h => exact ⟨_, rfl, h, rfl⟩

/-- The chip reads ACK_TYPE. -/
theorem Kept.readType {s : Collecting} (hs : Kept s) (hpc : s.handler = .readType) :
    Kept { s with handler := .readRet (s.host.shared.mem ACK_TYPE) } := by
  obtain ⟨o, ho, hpost⟩ := hs.at_readType hpc
  refine ⟨fun k => (hs.prepared k).weaken fun hc => absurd hpc hc.2.1, hs.flag, hs.pending, ?_,
    fun _ => hs.spaced (.inl hpc)⟩
  show Reading s.host.shared.mem (.readRet (s.host.shared.mem ACK_TYPE)) s.handling
  rw [hpost.type, ho]
  exact .readRet hpost

/-- And ACK_RETURN_VAL: from here on the next pulse may come. -/
theorem Kept.readRet {s : Collecting} (hs : Kept s) {t : Word} (hpc : s.handler = .readRet t) :
    Kept { s with handler := .readWords t (s.host.shared.mem ACK_RETURN_VAL) [] } := by
  obtain ⟨o, ho, hpost, rfl⟩ := hs.at_readRet hpc
  refine ⟨fun k => (hs.prepared k).weaken fun hc => absurd hpc (hc.2.2 _), hs.flag, hs.pending, ?_,
    fun h => by simp at h⟩
  show Reading s.host.shared.mem (.readWords _ (s.host.shared.mem ACK_RETURN_VAL) []) s.handling
  rw [hpost.ret, ho]
  exact .readWords hpost.printable (Nat.zero_le _) (fun j w hj => absurd hj (Nat.not_lt_zero j)) hpost.words

/-- And a word of READBUF. -/
theorem Kept.readWord {s : Collecting} (hs : Kept s) {t r : Word} {ws : List Word}
    (hpc : s.handler = .readWords t r ws) (hlt : ws.length < BUF_WORDS) :
    Kept { s with handler := .readWords t r (ws ++ [s.host.shared.mem (readbufAddr ws.length)]) } := by
  refine ⟨fun k => (hs.prepared k).weaken fun hc => ⟨hc.1, by simp, by simp⟩, hs.flag, hs.pending, ?_,
    fun h => by simp at h⟩
  have hread := hs.reading
  rw [hpc] at hread
  show Reading s.host.shared.mem _ s.handling
  generalize s.handling = ho at hread ⊢
  cases hread with
  | @readWords o _ hprint hlen hread hmem =>
    refine .readWords hprint (by simp; omega) (fun j w hj hw => ?_) fun j w hj hw => ?_
    · by_cases hjl : j < ws.length
      · rw [List.getElem?_append_left hjl]
        exact hread j w hjl hw
      · have hj' : j = ws.length := by simp at hj; omega
        subst hj'
        rw [hmem _ w (Nat.le_refl _) hw]
        simp
    · exact hmem j w (by simp at hj; omega) hw

/-- With all words read, what the chip has is the outcome's. -/
theorem Kept.readDone {s : Collecting} (hs : Kept s) {t r : Word} {ws : List Word}
    (hpc : s.handler = .readWords t r ws) (hlen : ¬ ws.length < BUF_WORDS) :
    Kept { s with
      handler := .idle, acks := ⟨t, r, ws⟩ :: s.acks, handling := none
      out := fun k => s.out k && !(ackWorker t = some k) } ∧
    ∃ o, s.handling = some o ∧ AckRead.Of ⟨t, r, ws⟩ o := by
  refine ⟨⟨fun k => (hs.prepared k).weaken fun hc => ⟨hc.1, by simp, by simp⟩, hs.flag, hs.pending,
    .idle, fun h => by simp at h⟩, ?_⟩
  have hread := hs.reading
  rw [hpc] at hread
  generalize s.handling = ho at hread ⊢
  cases hread with
  | @readWords o _ hprint _ hread =>
    refine ⟨o, rfl, rfl, rfl, fun reply hr => hprint.unpack (fun j w hw => ?_) hr⟩
    have hj := (List.getElem?_eq_some_iff.mp hw).1
    have := o.words_length
    exact hread j w (by omega) hw

/-- The chip takes the acknowledge. -/
theorem Kept.takeAck {s : Collecting} (hs : Kept s) (hidle : s.handler = .idle)
    (hpend : s.host.shared.ackPending = true) :
    Kept { s with
      handler := .readType, host := ChipAct.apply .takeAck s.host, pending := none
      handling := s.pending } ∧ s.handling = none := by
  obtain ⟨o, ho⟩ := Option.ne_none_iff_exists'.mp (hs.flag.mp hpend)
  have hnone : s.handling = none := by
    have hread := hs.reading
    rw [hidle] at hread
    generalize s.handling = ho at hread
    cases hread
    rfl
  refine ⟨⟨fun k => (hs.prepared k).weaken fun hc => absurd (hc.1.symm.trans hpend) (by simp),
    by simp [ChipAct.apply], (fun _ h => nomatch h), ?_, fun _ => rfl⟩, hnone⟩
  show Reading s.host.shared.mem .readType s.pending
  rw [ho]
  exact .readType (hs.pending o ho)

/-! ## Nothing is lost -/

/-- The completions a worker has still to acknowledge. -/
def unpublished (h : Host) (k : Worker) : List Outcome := (h.work k).publishing.toList

/-- Every completion is unpublished, behind a pulse, with the chip's handler or read, once. -/
def Counted (s : Collecting) : Prop :=
  ∃ l, List.Forall₂ AckRead.Of s.acks l ∧ ∀ o, (completions s.host.shared.log).count o =
    Worker.sum (fun k => (unpublished s.host k).count o) + s.pending.toList.count o +
      s.handling.toList.count o + l.count o

theorem exec_completions {P : Type} {t : Thread} {ans : Answer} {s s' : Shared} {i : Instr P} {p : P}
    (h : i.exec t ans s = some (s', p)) (hi : ∀ o q, i ≠ .ret o q) :
    completions s'.log = completions s.log := by
  cases i with
  | signal_wait n =>
    obtain ⟨-, rfl, -⟩ := Instr.exec_signal_wait h
    rfl
  | lock m n =>
    obtain ⟨_, -, rfl, -⟩ := Instr.exec_lock h
    rfl
  | ret o n => exact absurd rfl (hi o n)
  | ack_intr b n => cases b <;> (cases h; rfl)
  | _ => cases h <;> rfl

theorem Counted.host {s s' : Collecting} (hs : Counted s)
    (hlog : completions s'.host.shared.log = completions s.host.shared.log)
    (hpub : ∀ k, unpublished s'.host k = unpublished s.host k)
    (hchip : s'.acks = s.acks ∧ s'.pending = s.pending ∧ s'.handling = s.handling) : Counted s' := by
  obtain ⟨l, hl, hcount⟩ := hs
  obtain ⟨hacks, hpending, hhandling⟩ := hchip
  refine ⟨l, by rw [hacks]; exact hl, fun o => ?_⟩
  simp only [hlog, hpub, hpending, hhandling]
  exact hcount o

theorem Counted.work {s : Collecting} (hs : Counted s) (hkept : Kept s) {k : Worker} {ans : Answer}
    {sh : Shared} {q : WorkPc}
    (he : ((s.host.work k).code k).exec (.work k) ans s.host.shared = some (sh, q)) :
    Counted (s.afterWork k sh q (s.notePulse (.work k ans))) := by
  obtain ⟨l, hl, hcount⟩ := hs
  refine ⟨l, hl, fun o => ?_⟩
  have hsum := Worker.sum_change (f := fun k' => (unpublished (s.afterWork k sh q
    (s.notePulse (.work k ans))).host k').count o) (g := fun k' => (unpublished s.host k').count o) k
    (fun k' hk => by simp only [unpublished, afterWork, update_of_ne hk])
  have hown : unpublished (s.afterWork k sh q (s.notePulse (.work k ans))).host k =
      q.publishing.toList := by
    simp only [unpublished, afterWork, update_self]
  have hold := hcount o
  -- what the worker still has to acknowledge, against the completions and the pulse
  suffices h : (completions sh.log).count o + (unpublished s.host k).count o +
      s.pending.toList.count o = (completions s.host.shared.log).count o +
      q.publishing.toList.count o + (s.notePulse (.work k ans)).toList.count o by
    show (completions sh.log).count o = _ + (s.notePulse (.work k ans)).toList.count o +
      s.handling.toList.count o + l.count o
    simp only [hown] at hsum
    omega
  unfold unpublished
  cases hp : s.host.work k with
  | leave o' =>
    rw [hp] at he
    cases he
    simp only [notePulse, hp, completions, List.filterMap_cons, WorkPc.publishing,
      Option.toList_none, Option.toList_some, List.count_nil, List.count_cons]
    omega
  | ackHigh o' =>
    have hprep := hkept.prepared k
    rw [hp] at he hprep
    obtain ⟨-, -, hclear⟩ := hprep.ret o' rfl rfl
    have hnone : s.pending = none := by
      by_contra hne
      exact absurd (hclear.1.symm.trans (hkept.flag.mpr hne)) (by simp)
    cases he
    simp only [notePulse, hp, hnone, completions, List.filterMap_cons, WorkPc.publishing,
      Option.toList_none, Option.toList_some, List.count_nil]
    omega
  | _ =>
    have hlog := exec_completions he (WorkPc.code_ne_ret (by rw [hp]; simp))
    have hpub := WorkPc.next_publishing (Instr.exec_next he) (by rw [hp]; simp) (by rw [hp]; simp)
    simp only [notePulse, hp, hlog]
    rw [hpub, hp]

/-! ## The result -/

/-- What a step of the chip does to the host is among what any chip may do to it. -/
theorem ChipStep.host {a : CollectAct} {s s' : Collecting} (h : ChipStep a s s') :
    s'.host = s.host ∨ ∃ c : ChipAct, s'.host = c.apply s.host := by
  cases h with
  | look => exact .inl rfl
  | @argue _ r svc =>
    by_cases harg : svc.argVar.isSome = true
    · exact .inr ⟨.write READBUF_BEGIN r.arg, if_pos harg⟩
    · exact .inl (if_neg harg)
  | @type _ r => exact .inr ⟨.write IO_TYPE r.code, rfl⟩
  | edge => exact .inr ⟨.edge, rfl⟩
  | @scribble _ i v => exact .inr ⟨.write (writebufAddr i) v, rfl⟩
  | takeAck => exact .inr ⟨.takeAck, rfl⟩
  | readType | readRet | readWord | readDone => exact .inl rfl

theorem reach_host {ok : CollectAct → Collecting → Prop} {s : Collecting} (h : machine.ReachIf ok s) :
    anyChip.Reach s.host := by
  refine h.simulate (f := Collecting.host) (fun _ (hs : Fresh _) => hs.host) fun a s s' hstep => ?_
  by_cases ha : ∃ b, a = .host b
  · obtain ⟨b, rfl⟩ := ha
    simp only [machine, step, Option.map_eq_some_iff] at hstep
    obtain ⟨h', hh, rfl⟩ := hstep
    exact .inr ⟨.inl b, hh⟩
  · rcases (chipStep (fun b hb => ha ⟨b, hb⟩) hstep).host with hsame | ⟨c, hc⟩
    · exact .inl hsame
    · exact .inr ⟨.inr c, by rw [hc]; rfl⟩

/-- Taking the acknowledge moves an outcome from the pulse to the chip's handler. -/
theorem Counted.takeAck {s : Collecting} (hc : Counted s) (hnone : s.handling = none) :
    Counted { s with
      handler := .readType, host := ChipAct.apply .takeAck s.host, pending := none
      handling := s.pending } := by
  obtain ⟨l, hl, hcount⟩ := hc
  refine ⟨l, hl, fun o => ?_⟩
  have hold := hcount o
  rw [hnone] at hold
  simp only [Option.toList_none, List.count_nil] at hold ⊢
  show (completions s.host.shared.log).count o = _
  rw [hold, Nat.add_zero, Nat.add_zero]
  rfl

/-- And the last access moves it to what has been read. -/
theorem Counted.readDone {s : Collecting} (hc : Counted s) {o : Outcome} (ho : s.handling = some o)
    {a : AckRead} (hof : a.Of o) {out : Worker → Bool} :
    Counted { s with handler := .idle, acks := a :: s.acks, handling := none, out := out } := by
  obtain ⟨l, hl, hcount⟩ := hc
  refine ⟨o :: l, .cons hof hl, fun o' => ?_⟩
  have hold := hcount o'
  rw [ho] at hold
  simp only [Option.toList_none, Option.toList_some, List.count_nil, List.count_cons] at hold ⊢
  omega

/-- **A step of the chip keeps both.** -/
theorem Kept.chip {s s' : Collecting} {a : CollectAct} (hs : Kept s) (hc : Counted s)
    (ha : ∀ b, a ≠ .host b) (hok : KeepsUnread a s) (h : step a s = some s') :
    Kept s' ∧ Counted s' := by
  have hio : ∀ i < BUF_WORDS, IO_TYPE ≠ readbufAddr i := by decide
  cases chipStep ha h with
  | look | edge => exact ⟨hs.same rfl rfl rfl ⟨rfl, rfl, rfl⟩, hc⟩
  | @argue _ r svc hsvc =>
    by_cases harg : svc.argVar.isSome = true
    · have hmay : s.MayWrite READBUF_BEGIN := hok (by rw [hsvc]; exact harg)
      simp only [harg, if_true]
      exact ⟨hs.memory (a := READBUF_BEGIN) (v := r.arg) rfl rfl rfl ⟨rfl, rfl, rfl⟩ (by decide) hmay.2, hc⟩
    · simp only [harg]
      exact ⟨hs.same rfl rfl rfl ⟨rfl, rfl, rfl⟩, hc⟩
  | @type _ r =>
    exact ⟨hs.memory (a := IO_TYPE) (v := r.code) rfl rfl rfl ⟨rfl, rfl, rfl⟩ (by decide)
      fun i hi he => absurd he (hio i hi), hc⟩
  | @scribble _ i v hi =>
    refine ⟨hs.memory (a := writebufAddr i) (v := v) rfl rfl rfl ⟨rfl, rfl, rfl⟩ ⟨?_, ?_⟩
      fun j hj he => ?_, hc⟩
    · exact writebufAddr_ne_readbufAddr (j := 30) (Nat.lt_succ_of_lt hi) (by decide)
    · exact writebufAddr_ne_readbufAddr (j := 31) (Nat.lt_succ_of_lt hi) (by decide)
    · exact absurd he (writebufAddr_ne_readbufAddr (Nat.lt_succ_of_lt hi) (Nat.lt_succ_of_lt hj))
  | takeAck hidle hpend =>
    obtain ⟨hkept, hnone⟩ := hs.takeAck hidle hpend
    exact ⟨hkept, hc.takeAck hnone⟩
  | readType hpc => exact ⟨hs.readType hpc, hc⟩
  | readRet hpc => exact ⟨hs.readRet hpc, hc⟩
  | readWord hpc hlen => exact ⟨hs.readWord hpc hlen, hc⟩
  | readDone hpc hlen =>
    obtain ⟨hkept, o, ho, hof⟩ := hs.readDone hpc hlen
    exact ⟨hkept, hc.readDone ho hof⟩

theorem kept_counted {s : Collecting} (h : machine.ReachIf KeepsUnread s) : Kept s ∧ Counted s := by
  refine h.invariant_of (J := fun s => s.host.Held .JTAG ∧ s.host.Placed)
    (I := fun s => Kept s ∧ Counted s)
    (fun s hr => ⟨lock_sections (reach_host hr) .JTAG, workers_placed (reach_host hr)⟩)
    (fun s (hf : s.Fresh) => ?_) ?_
  · refine ⟨⟨fun k => ?_, ?_, fun o ho => ?_, ?_, fun _ => hf.pending⟩, [], ?_, fun o => ?_⟩
    · rw [hf.host.work]
      exact ⟨(fun _ h => nomatch h), .nil _ _, (fun _ h => nomatch h), (fun _ h => nomatch h)⟩
    · rw [hf.host.ackPending, hf.pending]; simp
    · rw [hf.pending] at ho; cases ho
    · rw [hf.handler, hf.handling]; exact .idle
    · rw [hf.acks]; exact .nil
    · simp [hf.host.log, hf.pending, hf.handling, unpublished, hf.host.work, completions, Worker.sum,
        WorkPc.publishing]
  · rintro a s s' ⟨hj, hpl⟩ ⟨hs, hc⟩ hok hstep
    by_cases ha : ∃ b, a = .host b
    · obtain ⟨b, rfl⟩ := ha
      simp only [machine, step, Option.map_eq_some_iff] at hstep
      obtain ⟨h', hh, rfl⟩ := hstep
      cases b with
      | handler =>
        simp only [Host.step] at hh
        split at hh
        · cases hh
          exact ⟨hs.same rfl rfl rfl ⟨rfl, rfl, rfl⟩, hc⟩
        · cases hh
      | dispatch ans =>
        refine ⟨hs.dispatch hh, ?_⟩
        simp only [Host.step, Option.map_eq_some_iff] at hh
        obtain ⟨⟨sh, p⟩, he, rfl⟩ := hh
        refine hc.host (exec_completions he fun o n hn => ?_) (fun _ => rfl) ⟨rfl, rfl, rfl⟩
        generalize s.host.dispatch = d at hn
        cases d <;> cases hn
      | work k ans =>
        simp only [Host.step, Option.map_eq_some_iff] at hh
        obtain ⟨⟨sh, q⟩, he, rfl⟩ := hh
        exact ⟨hs.work hj hpl hok he, hc.work hs he⟩
    · exact hs.chip hc (fun b hb => ha ⟨b, hb⟩) hok hstep

/-- **No completion is lost or garbled**, in every run in which no word is written that holds something
the chip has still to read: with nothing left to do, the chip has read each completion exactly once,
with its code, its return value and its own reply. -/
theorem completions_read {s : Collecting} (hr : machine.ReachIf KeepsUnread s) (hq : Quiescent s) :
    Delivered s := by
  obtain ⟨hkept, l, hl, hcount⟩ := kept_counted hr
  have hpending : s.pending = none := by
    by_contra hne
    exact absurd (hq.ack.symm.trans (hkept.flag.mpr hne)) (by simp)
  have hhandling : s.handling = none := by
    have hread := hkept.reading
    rw [hq.handler] at hread
    generalize s.handling = ho at hread
    cases hread
    rfl
  refine ⟨l, List.perm_iff_count.mpr fun o => ?_, hl⟩
  rw [hcount o, hpending, hhandling]
  simp [unpublished, hq.work, WorkPc.publishing, Worker.sum]

instance (s : Collecting) (i : Nat) : Decidable (s.Spent i) := inferInstanceAs (Decidable (_ ∧ _))

instance (s : Collecting) : Decidable s.Clear :=
  match h : s.handler with
  | .idle | .readWords _ _ _ =>
    decidable_of_iff (s.host.shared.ackPending = false) (by simp [Clear, h])
  | .readType | .readRet _ => isFalse (by simp [Clear, h])

instance (s : Collecting) (a : Word) : Decidable (s.MayWrite a) := inferInstanceAs (Decidable (_ ∧ _))

instance (a : CollectAct) (s : Collecting) : Decidable (KeepsUnread a s) :=
  match a with
  | .host (.work k _) =>
    match h : (s.host.work k).code k with
    | .writeMemory a _ _ => decidable_of_iff (s.MayWrite a) (by simp only [KeepsUnread, h])
    | .signal_wait _ | .signal_set _ _ | .lock _ _ | .unlock _ _ | .readMemory _ _ | .scans _ _
    | .reset _ | .load _ _ | .store _ _ _ | .ack_intr _ _ | .call _ _ _ | .ret _ _ | .outside _ _
    | .terminate _ _ | .panic _ | .power_down _ | .done => isTrue (by simp only [KeepsUnread, h])
  | .argue r => inferInstanceAs (Decidable (_ → s.MayWrite READBUF_BEGIN))
  | .host .handler | .host (.dispatch _) | .look | .type | .edge | .scribble _ _ | .takeAck | .read =>
    isTrue trivial

instance (s : Collecting) : Decidable (Quiescent s) :=
  decidable_of_iff (s.host.irq = false ∧
    (s.host.shared.flag .dispatch = false ∧ ∀ k, s.host.shared.flag (.work k) = false) ∧
    s.host.dispatch = .wait ∧ (∀ k, s.host.work k = .wait) ∧ s.host.shared.ackPending = false ∧
    s.handler = .idle)
    ⟨fun h => ⟨h.1, h.2.1, h.2.2.1, h.2.2.2.1, h.2.2.2.2.1, h.2.2.2.2.2⟩,
      fun h => ⟨h.1, h.2, h.3, h.4, h.5, h.6⟩⟩

/-- The host comes up in front of such a chip. -/
def fresh : Collecting :=
  ⟨Host.fresh (update (fun _ => 0) IO_TYPE EMPTY_REQ) false false, .idle, fun _ => false, .idle, [],
    none, none⟩

theorem fresh_fresh : fresh.Fresh :=
  ⟨Host.fresh_fresh _ _ _, by simp [fresh, Host.fresh], rfl, fun _ => rfl, rfl, rfl, rfl, rfl⟩

/-- A request without an argument is posted and dispatched. -/
def postRound (code : Word) : List CollectAct :=
  [.look, .argue ⟨code, 0⟩, .type, .edge, .host .handler] ++
    List.replicate 8 (.host (.dispatch .empty))

/-- One worker runs for a number of steps. -/
def workRound (k : Worker) (n : Nat) (ans : Answer) : List CollectAct :=
  List.replicate n (.host (.work k ans))

/-- The chip takes an acknowledge and reads it. -/
def collectRound : List CollectAct := .takeAck :: List.replicate 34 .read

theorem completions_read_scan :
    ∃ s, machine.ReachIf KeepsUnread s ∧ Quiescent s ∧
      completions s.host.shared.log = [⟨.term_scanf, 2, some [104, 105]⟩] ∧ Delivered s := by
  obtain ⟨s, hr, hs⟩ := Machine.exists_reach_of_run (M := machine.restrict KeepsUnread)
    (p := fun s => decide (Quiescent s ∧
      completions s.host.shared.log = [⟨.term_scanf, 2, some [104, 105]⟩]))
    fresh_fresh
    (postRound TERM_SCAN_REQ ++ workRound .recv 16 ⟨0, some [104, 105]⟩ ++ collectRound) (by decide)
  obtain ⟨hq, hc⟩ := of_decide_eq_true hs
  exact ⟨s, .of_restrict hr, hq, hc, completions_read (.of_restrict hr) hq⟩

/-- A print and a line request are out; both workers complete before the chip's handler runs.  The
second acknowledge is written over the first and the pulses merge, so one of the two completions is
never read. -/
theorem two_completions_one_read : ∃ s, machine.Reach s ∧ Quiescent s ∧ ¬ Delivered s := by
  obtain ⟨s, hr, hs⟩ := Machine.exists_reach_of_run (M := machine)
    (p := fun s => decide (Quiescent s ∧ (completions s.host.shared.log).length = 2 ∧
      s.acks.length = 1))
    fresh_fresh
    (postRound TERM_PRINT_REQ ++ postRound TERM_SCAN_REQ ++ workRound .send 16 .empty ++
      workRound .recv 16 ⟨0, some [104, 105]⟩ ++ collectRound) (by decide)
  obtain ⟨hq, htwo, hone⟩ := of_decide_eq_true hs
  refine ⟨s, hr, hq, ?_⟩
  rintro ⟨l, hperm, hread⟩
  have hlen := hperm.length_eq
  have hacks := hread.length_eq
  omega

end Collecting

end Expedition
