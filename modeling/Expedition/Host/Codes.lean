import Expedition.Jtag.World
import Mathlib.Data.List.TakeWhile

/-!
# Codes, services and the shared buffers

The request, acknowledge and type codes of `signal.h`, the addresses of `mmap.h`, the seven services
with what the loops of `main.cpp` know of each, and the conversion between C strings and the words
of the shared buffers (`shared_buf.cpp`).

* `requestService` — the `switch` of `dispatch_loop`.
* `sendService`, `recvService` — the `switch` of the worker loops.
* `unpack_packWords` — a string that `jtag_readbuffer` wrote is read back from the buffer.
-/

namespace Expedition

/-! ## `signal.h` -/

def EMPTY_REQ : Word := 16
def TERM_PRINT_REQ : Word := 0
def TERM_SCAN_REQ : Word := 1
def ENET_SEND_REQ : Word := 2
def ENET_RECV_REQ : Word := 3
def WIRELESS_SEND_REQ : Word := 4
def WIRELESS_RECV_REQ : Word := 5
def READ_POW_REQ : Word := 6
def PANIC_REQ : Word := 15

def PRINT_ACK : Word := 0
def SCAN_ACK : Word := 1
def ENET_SEND_ACK : Word := 2
def ENET_RECV_ACK : Word := 3
def WIRELESS_SEND_ACK : Word := 4
def WIRELESS_RECV_ACK : Word := 5
def READ_POW_ACK : Word := 6

def SEND_TYPE_TERM : Word := 1
def SEND_TYPE_ENET : Word := 2
def SEND_TYPE_WIRELESS : Word := 3
def RECV_TYPE_TERM : Word := 4
def RECV_TYPE_ENET : Word := 5
def RECV_TYPE_WIRELESS : Word := 6

/-! ## `mmap.h` -/

def WRITEBUF_BEGIN : Word := 0x24000100
def READBUF_BEGIN : Word := 0x24000180
def IO_TYPE : Word := 0x2400017C
def ACK_RETURN_VAL : Word := 0x240001F8
def ACK_TYPE : Word := 0x240001FC
def BUF_SIZE : Nat := 120

/-- The words from `WRITEBUF_BEGIN` to `WRITEBUF_END`, and from `READBUF_BEGIN` to `READBUF_END`. -/
def BUF_WORDS : Nat := 31

def writebufAddr (i : Nat) : Word := WRITEBUF_BEGIN + BitVec.ofNat 32 (4 * i)

def readbufAddr (i : Nat) : Word := READBUF_BEGIN + BitVec.ofNat 32 (4 * i)

theorem readbufAddr_inj {i j : Nat} (hi : i < 32) (hj : j < 32) (h : readbufAddr i = readbufAddr j) :
    i = j := by
  unfold readbufAddr READBUF_BEGIN at h
  have := congrArg BitVec.toNat h
  simp only [BitVec.toNat_add, BitVec.toNat_ofNat] at this
  omega

/-- The two buffers, and the acknowledge words after READBUF, do not overlap. -/
theorem writebufAddr_ne_readbufAddr {i j : Nat} (hi : i < 32) (hj : j < 32) :
    writebufAddr i ≠ readbufAddr j := by
  intro h
  unfold writebufAddr readbufAddr WRITEBUF_BEGIN READBUF_BEGIN at h
  have := congrArg BitVec.toNat h
  simp only [BitVec.ofNat_eq_ofNat, BitVec.toNat_add, BitVec.toNat_ofNat] at this
  omega

/-! ## Services -/

/-- The three worker threads: `data_send_loop`, `data_recv_loop` and `read_pow_loop`. -/
inductive Worker where
  | send
  | recv
  | pow
  deriving DecidableEq, Repr

instance (p : Worker → Prop) [DecidablePred p] : Decidable (∀ k, p k) :=
  decidable_of_iff (p .send ∧ p .recv ∧ p .pow)
    ⟨fun h k => match k with
      | .send => h.1
      | .recv => h.2.1
      | .pow => h.2.2, fun h => ⟨h _, h _, h _⟩⟩

/-- A number for each worker, added up. -/
def Worker.sum (f : Worker → Nat) : Nat := f .send + f .recv + f .pow

/-- A change for one worker is a change of the sum. -/
theorem Worker.sum_change {f g : Worker → Nat} (k : Worker) (h : ∀ k', k' ≠ k → f k' = g k') :
    sum f + g k = sum g + f k := by
  unfold sum
  cases k with
  | send => rw [h .recv (by simp), h .pow (by simp)]; omega
  | recv => rw [h .send (by simp), h .pow (by simp)]; omega
  | pow => rw [h .send (by simp), h .recv (by simp)]; omega

inductive Service where
  | term_printf
  | term_scanf
  | enet_send
  | enet_recv
  | wireless_send
  | wireless_recv
  | read_pow
  deriving DecidableEq, Repr

namespace Service

/-- The loop that runs the service. -/
def worker : Service → Worker
  | term_printf | enet_send | wireless_send => .send
  | term_scanf | enet_recv | wireless_recv => .recv
  | read_pow => .pow

/-- The acknowledge code the loop writes for the service. -/
def ack : Service → Word
  | term_printf => PRINT_ACK
  | term_scanf => SCAN_ACK
  | enet_send => ENET_SEND_ACK
  | enet_recv => ENET_RECV_ACK
  | wireless_send => WIRELESS_SEND_ACK
  | wireless_recv => WIRELESS_RECV_ACK
  | read_pow => READ_POW_ACK

/-- What `dispatch_loop` stores in the type variable; `read_pow_loop` has none. -/
def typeCode : Service → Word
  | term_printf => SEND_TYPE_TERM
  | enet_send => SEND_TYPE_ENET
  | wireless_send => SEND_TYPE_WIRELESS
  | term_scanf => RECV_TYPE_TERM
  | enet_recv => RECV_TYPE_ENET
  | wireless_recv => RECV_TYPE_WIRELESS
  | read_pow => 0

end Service

/-- The `switch` of `dispatch_loop`. -/
def requestService (type : Word) : Option Service :=
  if type = PANIC_REQ ∨ type = TERM_PRINT_REQ then some .term_printf
  else if type = TERM_SCAN_REQ then some .term_scanf
  else if type = ENET_SEND_REQ then some .enet_send
  else if type = ENET_RECV_REQ then some .enet_recv
  else if type = WIRELESS_SEND_REQ then some .wireless_send
  else if type = WIRELESS_RECV_REQ then some .wireless_recv
  else if type = READ_POW_REQ then some .read_pow
  else none

/-- The `switch` of `data_send_loop`. -/
def sendService (type : Word) : Option Service :=
  if type = SEND_TYPE_TERM then some .term_printf
  else if type = SEND_TYPE_ENET then some .enet_send
  else if type = SEND_TYPE_WIRELESS then some .wireless_send
  else none

/-- The `switch` of `data_recv_loop`. -/
def recvService (type : Word) : Option Service :=
  if type = RECV_TYPE_TERM then some .term_scanf
  else if type = RECV_TYPE_ENET then some .enet_recv
  else if type = RECV_TYPE_WIRELESS then some .wireless_recv
  else none

/-! ## Strings in words -/

/-- `byte_chunk_union`: a word as its four bytes, the low one first. -/
def chunkBytes (w : Word) : List Byte :=
  [w.extractLsb' 0 8, w.extractLsb' 8 8, w.extractLsb' 16 8, w.extractLsb' 24 8]

/-- `byte_chunk_union` the other way, from the first four bytes of a string; NUL after its end. -/
def chunkWord (s : List Byte) : Word := s.getD 3 0 ++ s.getD 2 0 ++ s.getD 1 0 ++ s.getD 0 0

/-- The words `jtag_readbuffer` writes for a string, at most `n`: it stops with the word that has
the terminator. -/
def packWords : Nat → List Byte → List Word
  | 0, _ => []
  | n + 1, s => chunkWord s :: if s.length < 4 then [] else packWords n (s.drop 4)

/-- The string in a buffer: its bytes up to the first NUL. -/
def unpack (ws : List Word) : List Byte := (ws.flatMap chunkBytes).takeWhile (· ≠ 0)

/-- The byte at offset `8 * k` of four bytes put together. -/
theorem chunkBytes_append (b₀ b₁ b₂ b₃ : Byte) :
    chunkBytes (b₃ ++ b₂ ++ b₁ ++ b₀) = [b₀, b₁, b₂, b₃] := by
  have hbyte : ∀ (k : Nat) (b : Byte), (∀ i < 8, (b₃ ++ b₂ ++ b₁ ++ b₀).getLsbD (k + i) = b.getLsbD i) →
      (b₃ ++ b₂ ++ b₁ ++ b₀).extractLsb' k 8 = b := by
    intro k b h
    apply BitVec.eq_of_getLsbD_eq
    intro i hi
    simp only [BitVec.getLsbD_extractLsb', hi, decide_true, Bool.true_and]
    exact h i hi
  unfold chunkBytes
  congr 1
  · refine hbyte 0 b₀ fun i hi => ?_
    rw [BitVec.getLsbD_append, if_pos (by omega), Nat.zero_add]
  congr 1
  · refine hbyte 8 b₁ fun i hi => ?_
    rw [BitVec.getLsbD_append, if_neg (by omega), BitVec.getLsbD_append, if_pos (by omega)]
    congr 1
    omega
  congr 1
  · refine hbyte 16 b₂ fun i hi => ?_
    rw [BitVec.getLsbD_append, if_neg (by omega), BitVec.getLsbD_append, if_neg (by omega),
      BitVec.getLsbD_append, if_pos (by omega)]
    congr 1
    omega
  congr 1
  · refine hbyte 24 b₃ fun i hi => ?_
    rw [BitVec.getLsbD_append, if_neg (by omega), BitVec.getLsbD_append, if_neg (by omega),
      BitVec.getLsbD_append, if_neg (by omega)]
    congr 1
    omega

theorem chunkBytes_chunkWord (s : List Byte) :
    chunkBytes (chunkWord s) = [s.getD 0 0, s.getD 1 0, s.getD 2 0, s.getD 3 0] :=
  chunkBytes_append _ _ _ _

/-- A chunk that is not the last holds four bytes of the string. -/
theorem chunkBytes_full {a b c d : Byte} {s : List Byte} :
    chunkBytes (chunkWord (a :: b :: c :: d :: s)) = [a, b, c, d] :=
  chunkBytes_chunkWord _

theorem takeWhile_append_zero {s : List Byte} (hs : ∀ b ∈ s, b ≠ 0) (rest : List Byte) :
    (s ++ 0 :: rest).takeWhile (· ≠ 0) = s := by
  rw [List.takeWhile_append_of_pos (fun b hb => by simpa using hs b hb)]
  simp

/-- The last chunk ends the string. -/
theorem takeWhile_chunk_short {s : List Byte} (hlen : s.length < 4) (hs : ∀ b ∈ s, b ≠ 0)
    (rest : List Byte) :
    (chunkBytes (chunkWord s) ++ rest).takeWhile (· ≠ 0) = s := by
  rw [chunkBytes_chunkWord]
  match s, hlen, hs with
  | [], _, hs => exact takeWhile_append_zero hs _
  | [_], _, hs => exact takeWhile_append_zero hs _
  | [_, _], _, hs => exact takeWhile_append_zero hs _
  | [_, _, _], _, hs => exact takeWhile_append_zero hs _

/-- **A string written to a buffer is the string read from it**, whatever follows, as long as there is
room for its terminator. -/
theorem unpack_packWords (n : Nat) (s : List Byte) (hs : ∀ b ∈ s, b ≠ 0) (hlen : s.length < 4 * n)
    (rest : List Word) : unpack (packWords n s ++ rest) = s := by
  induction n generalizing s with
  | zero => exact absurd hlen (Nat.not_lt_zero _)
  | succ n ih =>
    by_cases hshort : s.length < 4
    · have htake := takeWhile_chunk_short hshort hs (rest.flatMap chunkBytes)
      rw [packWords, if_pos hshort]
      exact htake
    · match s, hshort, hs, hlen with
      | a :: b :: c :: d :: s, hshort, hs, hlen =>
        have htail := ih s (fun x hx => hs x (by simp [hx])) (by simp at hlen; omega)
        rw [packWords, if_neg hshort]
        unfold unpack at *
        have hfour : ∀ x ∈ [a, b, c, d], decide (x ≠ 0) = true := by
          intro x hx
          have hmem : x ∈ a :: b :: c :: d :: s := List.mem_append_left s hx
          exact decide_eq_true (hs x hmem)
        rw [List.cons_append, List.flatMap_cons, chunkBytes_full,
          List.takeWhile_append_of_pos hfour]
        exact congrArg ([a, b, c, d] ++ ·) htail
      | [], h, _, _ => exact absurd (by simp) h
      | [_], h, _, _ => exact absurd (by simp) h
      | [_, _], h, _, _ => exact absurd (by simp) h
      | [_, _, _], h, _, _ => exact absurd (by simp) h

/-- The same where the words it was written to are the first of a buffer. -/
theorem unpack_of_words (n : Nat) (s : List Byte) (hs : ∀ b ∈ s, b ≠ 0) (hlen : s.length < 4 * n)
    {ws : List Word} (hws : ∀ (j : Nat) w, (packWords n s)[j]? = some w → ws[j]? = some w) :
    unpack ws = s := by
  have htake : packWords n s = ws.take (packWords n s).length := by
    refine List.ext_getElem? fun j => ?_
    by_cases hj : j < (packWords n s).length
    · rw [List.getElem?_take_of_lt hj, List.getElem?_eq_getElem hj]
      exact (hws j _ (List.getElem?_eq_getElem hj)).symm
    · rw [List.getElem?_eq_none (by omega), List.getElem?_eq_none (by simp; omega)]
  have hsplit := List.take_append_drop (packWords n s).length ws
  rw [← htake] at hsplit
  rw [← hsplit]
  exact unpack_packWords n s hs hlen _

/-- A word with a NUL ends the string. -/
theorem unpack_cons_zero {w : Word} {ws : List Word} (h : (0 : Byte) ∈ chunkBytes w) :
    unpack (w :: ws) = (chunkBytes w).takeWhile (· ≠ 0) := by
  unfold unpack
  rw [List.flatMap_cons, List.takeWhile_append]
  split
  · rename_i hall
    have htake := List.takeWhile_prefix (l := chunkBytes w) (p := (· ≠ 0))
    have heq := htake.eq_of_length hall
    have hmem : (0 : Byte) ∈ (chunkBytes w).takeWhile (· ≠ 0) := by rw [heq]; exact h
    have := List.mem_takeWhile_imp hmem
    simp at this
  · rfl

/-- One without goes on. -/
theorem unpack_cons_full {w : Word} {ws : List Word} (h : (0 : Byte) ∉ chunkBytes w) :
    unpack (w :: ws) = (chunkBytes w).takeWhile (· ≠ 0) ++ unpack ws := by
  have hall : ∀ b ∈ chunkBytes w, decide (b ≠ 0) = true := by
    intro b hb
    refine decide_eq_true fun h0 => h (by rw [← h0]; exact hb)
  unfold unpack
  rw [List.flatMap_cons, List.takeWhile_append_of_pos hall, List.takeWhile_eq_self_iff.mpr hall]

theorem length_packWords_le (n : Nat) (s : List Byte) : (packWords n s).length ≤ n := by
  induction n generalizing s with
  | zero => exact Nat.le_refl _
  | succ n ih =>
    rw [packWords]
    split
    · simp
    · simpa using ih (s.drop 4)

/-- The word a reply goes on with. -/
theorem packWords_of_drop {s : List Byte} {i : Nat} {w : Word} {ws : List Word}
    (h : w :: ws = (packWords BUF_WORDS s).drop i) :
    (packWords BUF_WORDS s)[i]? = some w ∧ i < BUF_WORDS := by
  have hget : (packWords BUF_WORDS s)[i]? = some w := by
    have := congrArg (·[0]?) h
    simpa using this.symm
  exact ⟨hget, Nat.lt_of_lt_of_le (List.getElem?_eq_some_iff.mp hget).1 (length_packWords_le _ _)⟩

/-- Where the words below `i` are in READBUF, a write of word `i` leaves those up to it there. -/
theorem readbuf_written {ws : List Word} {i : Nat} (hi : i < BUF_WORDS) {w : Word} (hget : ws[i]? = some w)
    {mem : Word → Word} (hmem : ∀ j w', j < i → ws[j]? = some w' → mem (readbufAddr j) = w') :
    ∀ j w', j < i + 1 → ws[j]? = some w' →
      Function.update mem (readbufAddr i) w (readbufAddr j) = w' := by
  intro j w' hj hw'
  have hwords : BUF_WORDS = 31 := rfl
  by_cases hji : j = i
  · subst hji
    rw [hget] at hw'
    cases hw'
    simp
  · have hne : readbufAddr j ≠ readbufAddr i := fun e =>
      hji (readbufAddr_inj (by omega) (by omega) e)
    rw [Function.update_of_ne hne]
    exact hmem j w' (by omega) hw'

/-- A string of at most `4 * m + 3` bytes takes at most `m + 1` words. -/
theorem length_packWords (n m : Nat) (s : List Byte) (h : s.length < 4 * (m + 1)) :
    (packWords n s).length ≤ m + 1 := by
  induction n generalizing s m with
  | zero => exact Nat.zero_le _
  | succ n ih =>
    rw [packWords]
    split
    · simp
    · rename_i hs
      cases m with
      | zero => exact absurd h hs
      | succ m =>
        have := ih m (s.drop 4) (by rw [List.length_drop]; omega)
        simpa using this

end Expedition
