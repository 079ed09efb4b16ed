import Mathlib.Data.List.Induction
import Expedition.Host.Mailbox

/-!
# What a send transmits

The three send services copy the string in WRITEBUF to a static buffer and transmit from it:
`term_printf` up to the NUL, `wireless_send` up to `strlen`, and `enet_send` the whole of
`sizeof(inet_txbuffer)`.  The buffers keep their bytes from one request to the next, and `mbed_vprintf`
uses the buffer of `term_printf` too.

* `term_printf_sent`, `wireless_send_sent`, `enet_send_sent` — what each of them transmits.
* `inet_txbuffer_run` — what a history of requests leaves in the buffer of `enet_send`.
* `sends_same_iff` — for two histories and one current message: when the three services transmit the
  same in both.

Where a string does not fit, the bytes past the end of its buffer go to memory that is not modelled
here.
-/

namespace Expedition

/-- The static transmit buffers. -/
structure TxBuffers where
  term_txbuffer : Nat → Byte
  inet_txbuffer : Nat → Byte
  wireless_txbuffer : Nat → Byte

/-- Static storage starts as zeros. -/
def TxBuffers.start : TxBuffers := ⟨fun _ => 0, fun _ => 0, fun _ => 0⟩

/-- The links that the program has opened. -/
structure Links where
  ethernet_open : Bool
  wireless_open : Bool
  deriving DecidableEq, Repr

/-- The buffer after `jtag_writebuffer`. -/
def writebufferTo (mem : Word → Word) (buffer : Nat → Byte) : Nat → Byte :=
  (Buffers.before mem buffer).jtag_writebuffer.2.buf

/-- `term_sendbuffer` at index `i`, with the answers of `pc.writeable()` still to come: the characters
put to the terminal, or nothing if it is still waiting when the answers end. -/
def sendFrom (buffer : Nat → Byte) (size : Nat) : List Bool → Nat → Option (List Byte)
  | [], i => if size ≤ i ∨ buffer i = 0 then some [] else none
  | writeable :: polls, i =>
    if size ≤ i ∨ buffer i = 0 then some []
    else if writeable then (sendFrom buffer size polls (i + 1)).map (buffer i :: ·)
    else sendFrom buffer size polls i

def term_sendbuffer (buffer : Nat → Byte) (size : Nat) (polls : List Bool) : Option (List Byte) :=
  sendFrom buffer size polls 0

/-- `strlen`, of a string that ends before index `n`. -/
def strlen (n : Nat) (buffer : Nat → Byte) : Nat :=
  ((List.range n).takeWhile fun i => buffer i ≠ 0).length

/-- `vsnprintf` of a text to a buffer of `size` bytes. -/
def vsnprintf (buffer : Nat → Byte) (size : Nat) (text : List Byte) : Nat → Byte := fun i =>
  (text.take (size - 1) ++ [0]).getD i (buffer i)

namespace TxBuffers

def term_printf (mem : Word → Word) (polls : List Bool) (b : TxBuffers) :
    Option (List Byte) × TxBuffers :=
  let b := { b with term_txbuffer := writebufferTo mem b.term_txbuffer }
  (term_sendbuffer b.term_txbuffer BUF_SIZE polls, b)

/-- The bytes handed to `socket.send_all`. -/
def enet_send (links : Links) (mem : Word → Word) (b : TxBuffers) : List Byte × TxBuffers :=
  if links.ethernet_open = false then ([], b)
  else
    let b := { b with inet_txbuffer := writebufferTo mem b.inet_txbuffer }
    ((List.range BUF_SIZE).map b.inet_txbuffer, b)

/-- The string has at most 124 bytes, so that `strlen` looks at 125. -/
def wireless_send (links : Links) (mem : Word → Word) (b : TxBuffers) : List Byte × TxBuffers :=
  if links.wireless_open = false then ([], b)
  else
    let b := { b with wireless_txbuffer := writebufferTo mem b.wireless_txbuffer }
    ((List.range (strlen 125 b.wireless_txbuffer)).map b.wireless_txbuffer, b)

def mbed_vprintf (text : List Byte) (polls : List Bool) (b : TxBuffers) :
    Option (List Byte) × TxBuffers :=
  let b := { b with term_txbuffer := vsnprintf b.term_txbuffer BUF_SIZE text }
  (term_sendbuffer b.term_txbuffer BUF_SIZE polls, b)

end TxBuffers

/-- What came before the current request: requests of the chip, each with the memory it was served from,
and messages of the program itself.  The requests that receive use other buffers. -/
inductive Earlier where
  | termPrint (mem : Word → Word) (polls : List Bool)
  | enetSend (mem : Word → Word)
  | wirelessSend (mem : Word → Word)
  | mbedPrint (text : List Byte) (polls : List Bool)
  | receive

def TxBuffers.serve (links : Links) (b : TxBuffers) : Earlier → TxBuffers
  | .termPrint mem polls => (b.term_printf mem polls).2
  | .enetSend mem => (b.enet_send links mem).2
  | .wirelessSend mem => (b.wireless_send links mem).2
  | .mbedPrint text polls => (b.mbed_vprintf text polls).2
  | .receive => b

/-- The buffers after a history. -/
def TxBuffers.after (links : Links) (history : List Earlier) : TxBuffers :=
  history.foldl (TxBuffers.serve links) .start

/-! ## What is transmitted -/

/-- The string in WRITEBUF. -/
def message (mem : Word → Word) : List Byte := unpack (writebuf mem)

theorem message_ne_zero (mem : Word → Word) : ∀ b ∈ message mem, b ≠ 0 := by
  intro b hb
  have := List.mem_takeWhile_imp hb
  simpa using this

theorem length_message_le (mem : Word → Word) : (message mem).length ≤ 124 := by
  have hle := (List.takeWhile_sublist (l := writebufBytes mem) fun b => decide (b ≠ 0)).length_le
  rw [length_writebufBytes] at hle
  exact hle

/-- The message and its terminator, and what was there before after them. -/
theorem writebufferTo_apply (mem : Word → Word) (buffer : Nat → Byte) (i : Nat) :
    writebufferTo mem buffer i = (message mem ++ [0]).getD i (buffer i) := by
  rw [writebufferTo, Buffers.jtag_writebuffer_run]
  show ((Buffers.before mem buffer).put 0 (unpack (writebuf mem) ++ [0])).buf i = _
  rw [Buffers.put_buf, if_pos (Nat.zero_le i)]
  rfl

theorem writebufferTo_of_lt {mem : Word → Word} (buffer : Nat → Byte) {i : Nat}
    (h : i < (message mem).length) : writebufferTo mem buffer i = (message mem).get ⟨i, h⟩ := by
  rw [writebufferTo_apply]
  exact terminated_byte _ _ h

theorem writebufferTo_end (mem : Word → Word) (buffer : Nat → Byte) :
    writebufferTo mem buffer (message mem).length = 0 := by
  rw [writebufferTo_apply]
  exact terminated_end _ _

theorem writebufferTo_of_gt {mem : Word → Word} (buffer : Nat → Byte) {i : Nat}
    (h : (message mem).length < i) : writebufferTo mem buffer i = buffer i := by
  rw [writebufferTo_apply, List.getD_eq_getElem?_getD,
    List.getElem?_eq_none (by rw [List.length_append, List.length_singleton]; omega)]
  rfl

/-- The characters of a buffer from index `i` on, up to the NUL or the size. -/
def charsFrom (buffer : Nat → Byte) (size i : Nat) : List Byte :=
  ((List.range' i (size - i)).map buffer).takeWhile (· ≠ 0)

/-- Given as many yes answers as there are bytes left, `term_sendbuffer` puts the string. -/
theorem sendFrom_eq (buffer : Nat → Byte) (size : Nat) (polls : List Bool) :
    ∀ i, size - i ≤ polls.count true → sendFrom buffer size polls i = some (charsFrom buffer size i) := by
  have hstop : ∀ i, size ≤ i ∨ buffer i = 0 → charsFrom buffer size i = [] := by
    intro i h
    rw [charsFrom]
    rcases Nat.lt_or_ge i size with hi | hi
    · have hz : buffer i = 0 := h.resolve_left (by omega)
      rw [show size - i = (size - (i + 1)) + 1 by omega, List.range'_succ, List.map_cons,
        List.takeWhile_cons_of_neg (by simp [hz])]
    · rw [show size - i = 0 by omega]
      rfl
  have hmore : ∀ i, ¬ (size ≤ i ∨ buffer i = 0) →
      charsFrom buffer size i = buffer i :: charsFrom buffer size (i + 1) := by
    intro i h
    obtain ⟨hi, hz⟩ := not_or.mp h
    rw [charsFrom, show size - i = (size - (i + 1)) + 1 by omega, List.range'_succ, List.map_cons,
      List.takeWhile_cons_of_pos (by simpa using hz)]
    rfl
  induction polls with
  | nil =>
    intro i hi
    have hend : size ≤ i ∨ buffer i = 0 := by
      rw [List.count_nil] at hi
      omega
    rw [sendFrom, if_pos hend, hstop i hend]
  | cons writeable polls ih =>
    intro i hi
    by_cases hend : size ≤ i ∨ buffer i = 0
    · rw [sendFrom, if_pos hend, hstop i hend]
    · rw [sendFrom, if_neg hend]
      cases writeable with
      | true =>
        rw [List.count_cons_self] at hi
        rw [if_pos rfl, ih (i + 1) (by omega), hmore i hend]
        rfl
      | false =>
        rw [List.count_cons_of_ne (by decide)] at hi
        rw [if_neg (by decide), ih i hi]

/-- The string of a buffer that begins with a message. -/
theorem charsFrom_writebufferTo (mem : Word → Word) (buffer : Nat → Byte) (size : Nat) :
    charsFrom (writebufferTo mem buffer) size 0 = (message mem).take size := by
  have hlen : ((message mem).take size).length = min size (message mem).length := List.length_take
  rw [charsFrom, Nat.sub_zero, ← List.range_eq_range']
  refine (takeWhile_eq_map (f := writebufferTo mem buffer) (L := min size (message mem).length)
    ?_ (fun k hk => ?_) (fun k hk => ?_) fun hlt => ?_).trans ?_
  · rw [List.length_map, List.length_range]
    omega
  · rw [List.getElem?_map, List.getElem?_range (by omega)]
    rfl
  · rw [writebufferTo_of_lt buffer (show k < (message mem).length by omega)]
    exact message_ne_zero mem _ (List.get_mem _ _)
  · rw [List.length_map, List.length_range] at hlt
    have hfits : min size (message mem).length = (message mem).length := by omega
    rw [List.getElem?_map, List.getElem?_range (by omega), hfits]
    exact congrArg some (writebufferTo_end mem buffer)
  · refine List.ext_getElem (by rw [List.length_map, List.length_range, hlen]) fun k hk hk' => ?_
    rw [hlen] at hk'
    rw [List.getElem_map, List.getElem_range, writebufferTo_of_lt buffer (by omega),
      List.getElem_take]
    rfl

namespace TxBuffers

/-- **`term_printf` transmits the message**, as far as its buffer goes. -/
theorem term_printf_sent (mem : Word → Word) (b : TxBuffers) {polls : List Bool}
    (h : BUF_SIZE ≤ polls.count true) :
    (b.term_printf mem polls).1 = some ((message mem).take BUF_SIZE) := by
  rw [term_printf, ← charsFrom_writebufferTo mem b.term_txbuffer BUF_SIZE]
  exact sendFrom_eq _ BUF_SIZE polls 0 (by omega)

theorem strlen_writebufferTo (mem : Word → Word) (buffer : Nat → Byte) :
    strlen 125 (writebufferTo mem buffer) = (message mem).length := by
  have hle := length_message_le mem
  have hchars := charsFrom_writebufferTo mem buffer 125
  rw [charsFrom, Nat.sub_zero, ← List.range_eq_range', List.takeWhile_map, List.take_of_length_le
    (by omega)] at hchars
  rw [← hchars, List.length_map]
  rfl

/-- **`wireless_send` transmits the message.** -/
theorem wireless_send_sent (links : Links) (mem : Word → Word) (b : TxBuffers) :
    (b.wireless_send links mem).1 = if links.wireless_open then message mem else [] := by
  rw [wireless_send]
  cases links.wireless_open with
  | false => rfl
  | true =>
    rw [if_neg (by decide)]
    refine List.ext_getElem ?_ fun k hk hk' => ?_
    · rw [List.length_map, List.length_range, strlen_writebufferTo]
      rfl
    · rw [List.getElem_map, List.getElem_range]
      exact writebufferTo_of_lt b.wireless_txbuffer hk'

/-- **`enet_send` transmits the message, its terminator and what its buffer holds after that.** -/
theorem enet_send_sent (links : Links) (mem : Word → Word) (b : TxBuffers) :
    (b.enet_send links mem).1 =
      if links.ethernet_open then (List.range BUF_SIZE).map (writebufferTo mem b.inet_txbuffer)
      else [] := by
  rw [enet_send]
  cases links.ethernet_open with
  | false => rfl
  | true => rfl

end TxBuffers

/-! ## Two histories -/

/-- The message an earlier request sent over Ethernet. -/
def Earlier.enetMessage : Earlier → Option (List Byte)
  | .enetSend mem => some (message mem)
  | _ => none

/-- The byte at index `i` that earlier Ethernet messages have left: that of the last one that reached
so far with its terminator. -/
def leftover (history : List Earlier) (i : Nat) : Byte :=
  match (history.filterMap Earlier.enetMessage).reverse.find? fun m => i ≤ m.length with
  | some m => (m ++ [0]).getD i 0
  | none => 0

theorem leftover_concat_other {history : List Earlier} {r : Earlier} (h : r.enetMessage = none)
    (i : Nat) : leftover (history ++ [r]) i = leftover history i := by
  simp [leftover, List.filterMap_append, h]

theorem leftover_concat_enet (history : List Earlier) (mem : Word → Word) (i : Nat) :
    leftover (history ++ [.enetSend mem]) i =
      if i ≤ (message mem).length then (message mem ++ [0]).getD i 0 else leftover history i := by
  have hlist : ((history ++ [Earlier.enetSend mem]).filterMap Earlier.enetMessage).reverse =
      message mem :: (history.filterMap Earlier.enetMessage).reverse := by
    simp [List.filterMap_append, Earlier.enetMessage]
  unfold leftover
  rw [hlist]
  by_cases h : i ≤ (message mem).length
  · rw [List.find?_cons_of_pos (by simpa using h), if_pos h]
  · rw [List.find?_cons_of_neg (by simpa using h), if_neg h]

/-- Only an Ethernet send touches the buffer of `enet_send`. -/
theorem serve_inet_txbuffer {links : Links} (b : TxBuffers) {r : Earlier} (h : r.enetMessage = none) :
    (b.serve links r).inet_txbuffer = b.inet_txbuffer := by
  cases r with
  | enetSend mem => cases h
  | wirelessSend mem =>
    rw [TxBuffers.serve, TxBuffers.wireless_send]
    split <;> rfl
  | termPrint => rfl
  | mbedPrint => rfl
  | receive => rfl

/-- **What a history leaves in the buffer of `enet_send`.** -/
theorem inet_txbuffer_run {links : Links} (hopen : links.ethernet_open = true)
    (history : List Earlier) (i : Nat) :
    (TxBuffers.after links history).inet_txbuffer i = leftover history i := by
  induction history using List.reverseRecOn with
  | nil => rfl
  | append_singleton history r ih =>
    have hafter : TxBuffers.after links (history ++ [r]) =
        (TxBuffers.after links history).serve links r := List.foldl_append ..
    rw [hafter]
    cases hr : r.enetMessage with
    | none => rw [serve_inet_txbuffer _ hr, leftover_concat_other hr, ih]
    | some m =>
      cases r with
      | enetSend mem =>
        have hbuffer : ((TxBuffers.after links history).serve links (.enetSend mem)).inet_txbuffer =
            writebufferTo mem (TxBuffers.after links history).inet_txbuffer := by
          rw [TxBuffers.serve, TxBuffers.enet_send, if_neg (by rw [hopen]; decide)]
        rw [hbuffer, leftover_concat_enet, writebufferTo_apply, List.getD_eq_getElem?_getD]
        by_cases h : i ≤ (message mem).length
        · have hlt : i < (message mem ++ [0]).length := by
            rw [List.length_append, List.length_singleton]
            omega
          rw [if_pos h, List.getD_eq_getElem?_getD, List.getElem?_eq_getElem hlt]
          rfl
        · rw [if_neg h, ← ih, List.getElem?_eq_none
            (by rw [List.length_append, List.length_singleton]; omega)]
          rfl
      | termPrint => cases hr
      | wirelessSend => cases hr
      | mbedPrint => cases hr
      | receive => cases hr

/-- The current request transmits the same from both buffers, whichever of the three services it asks
for and whenever the terminal takes the characters. -/
def SendsSame (links : Links) (mem : Word → Word) (b₁ b₂ : TxBuffers) : Prop :=
  (∀ p₁ p₂ : List Bool, BUF_SIZE ≤ p₁.count true → BUF_SIZE ≤ p₂.count true →
    ∃ l, (b₁.term_printf mem p₁).1 = some l ∧ (b₂.term_printf mem p₂).1 = some l) ∧
  (b₁.enet_send links mem).1 = (b₂.enet_send links mem).1 ∧
  (b₁.wireless_send links mem).1 = (b₂.wireless_send links mem).1

/-- The terminal and the wireless service always do; the Ethernet service where the buffers agree after
the terminator. -/
theorem sendsSame_iff_agree (links : Links) (mem : Word → Word) (b₁ b₂ : TxBuffers) :
    SendsSame links mem b₁ b₂ ↔ (links.ethernet_open = true →
      ∀ i, (message mem).length < i → i < BUF_SIZE → b₁.inet_txbuffer i = b₂.inet_txbuffer i) := by
  have hterm : ∀ p₁ p₂ : List Bool, BUF_SIZE ≤ p₁.count true → BUF_SIZE ≤ p₂.count true →
      ∃ l, (b₁.term_printf mem p₁).1 = some l ∧ (b₂.term_printf mem p₂).1 = some l :=
    fun p₁ p₂ h₁ h₂ => ⟨_, b₁.term_printf_sent mem h₁, b₂.term_printf_sent mem h₂⟩
  have hwireless : (b₁.wireless_send links mem).1 = (b₂.wireless_send links mem).1 := by
    rw [b₁.wireless_send_sent, b₂.wireless_send_sent]
  have henet : (b₁.enet_send links mem).1 = (b₂.enet_send links mem).1 ↔
      (links.ethernet_open = true → ∀ i < BUF_SIZE,
        writebufferTo mem b₁.inet_txbuffer i = writebufferTo mem b₂.inet_txbuffer i) := by
    rw [b₁.enet_send_sent, b₂.enet_send_sent]
    cases links.ethernet_open with
    | false => simp
    | true => simp
  constructor
  · rintro ⟨-, he, -⟩ hopen i hlen hi
    have hbyte := henet.mp he hopen i hi
    rwa [writebufferTo_of_gt _ hlen, writebufferTo_of_gt _ hlen] at hbyte
  · intro h
    refine ⟨hterm, henet.mpr fun hopen i hi => ?_, hwireless⟩
    rcases Nat.lt_trichotomy i (message mem).length with hlt | rfl | hgt
    · rw [writebufferTo_of_lt _ hlt, writebufferTo_of_lt _ hlt]
    · rw [writebufferTo_end, writebufferTo_end]
    · rw [writebufferTo_of_gt _ hgt, writebufferTo_of_gt _ hgt]
      exact h hopen i hgt hi

/-- **When a send discloses only the current message.**  For every two histories and every content of
WRITEBUF: the three services transmit the same after both exactly if the Ethernet link is closed or
earlier Ethernet messages have left the same bytes between the terminator of the message and the
end of the buffer. -/
theorem sends_same_iff (links : Links) (mem : Word → Word) (history₁ history₂ : List Earlier) :
    SendsSame links mem (TxBuffers.after links history₁) (TxBuffers.after links history₂) ↔
      (links.ethernet_open = true → ∀ i, (message mem).length < i → i < BUF_SIZE →
        leftover history₁ i = leftover history₂ i) := by
  rw [sendsSame_iff_agree]
  refine forall_congr' fun hopen => ?_
  simp only [inet_txbuffer_run hopen]

/-- WRITEBUF with the string `s` at its beginning and NUL after it. -/
def memWith (s : List Byte) : Word → Word := fun a =>
  if WRITEBUF_BEGIN.toNat ≤ a.toNat then chunkWord (s.drop (a.toNat - WRITEBUF_BEGIN.toNat)) else 0

/-- After the message "secret" over Ethernet, the message "x" carries its last bytes. -/
theorem enet_send_discloses :
    ¬ SendsSame ⟨true, false⟩ (memWith [120])
      (TxBuffers.after ⟨true, false⟩ [.enetSend (memWith [115, 101, 99, 114, 101, 116])])
      (TxBuffers.after ⟨true, false⟩ []) ∧
    (((TxBuffers.after ⟨true, false⟩ [.enetSend (memWith [115, 101, 99, 114, 101, 116])]).enet_send
      ⟨true, false⟩ (memWith [120])).1.take 7 = [120, 0, 99, 114, 101, 116, 0]) := by
  refine ⟨fun h => ?_, by decide +kernel⟩
  have hbyte := (sendsSame_iff_agree _ _ _ _).mp h rfl 2 (by decide +kernel) (by decide)
  rw [inet_txbuffer_run rfl, inet_txbuffer_run rfl] at hbyte
  exact absurd hbyte (by decide +kernel)

end Expedition
