import Expedition.Host.Loops

/-!
# The static buffers, byte by byte

`shared_buf.cpp` and the two functions that receive, over the bytes in memory from the beginning of
a static buffer on: an index of `BUF_SIZE` or more is memory that belongs to something else.  Every
index read or written is recorded.

* `jtag_writebuffer_run` — `jtag_writebuffer` stores the string in WRITEBUF and its terminator.
* `jtag_readbuffer_run` — `jtag_readbuffer` writes the words of the string in the buffer, and reads up
  to its terminator.
* `writebuffer_in_bounds_iff`, `recv_in_bounds_iff` — when they keep to the buffer.
* `enet_recv_intact_iff` — when a message arrives as it was sent.
-/

namespace Expedition

open Function

/-- The target's memory, the bytes from the beginning of a buffer on, and the indices used so far. -/
structure Buffers where
  mem : Word → Word
  buf : Nat → Byte
  touched : Nat → Bool

/-- Nothing used yet. -/
def Buffers.before (mem : Word → Word) (buf : Nat → Byte) : Buffers := ⟨mem, buf, fun _ => false⟩

/-- Every index used is inside the buffer. -/
def Buffers.InBounds (s : Buffers) : Prop := ∀ i, s.touched i = true → i < BUF_SIZE

namespace Buffers

/-- Use the indices of `f`. -/
def look (s : Buffers) (f : Nat → Bool) : Buffers := { s with touched := fun i => s.touched i || f i }

def store (s : Buffers) (i : Nat) (b : Byte) : Buffers :=
  { s.look (· = i) with buf := update s.buf i b }

/-- Bytes one after the other. -/
def put (s : Buffers) : Nat → List Byte → Buffers
  | _, [] => s
  | i, b :: l => (s.store i b).put (i + 1) l

def writeMemory (s : Buffers) (a v : Word) : Buffers := { s with mem := update s.mem a v }

/-! ## `shared_buf.cpp` -/

/-- The inner loop of `jtag_writebuffer`, with `len` bytes stored: whether it is finished, the bytes
stored after it. -/
def writeChunk : List Byte → Nat → Buffers → Bool × Nat × Buffers
  | [], len, s => (false, len, s)
  | b :: bytes, len, s => if b ≠ 0 then writeChunk bytes (len + 1) (s.store len b) else (true, len, s)

/-- The outer loop, at the word of index `i`. -/
def writeWords : Nat → Nat → Nat → Buffers → Nat × Buffers
  | 0, _, len, s => (len, s)
  | left + 1, i, len, s =>
    let (finished, len, s) := writeChunk (chunkBytes (s.mem (writebufAddr i))) len s
    if finished then (len, s) else writeWords left (i + 1) len s

def jtag_writebuffer (s : Buffers) : Nat × Buffers :=
  let (len, s) := writeWords BUF_WORDS 0 0 s
  (len, s.store len 0)

/-- The inner loop of `jtag_readbuffer`, at index `k` of the buffer: the bytes of the chunk, the index
and `finished` after it. -/
def fillChunk : Nat → Nat → Bool → Buffers → List Byte × Nat × Bool × Buffers
  | 0, k, finished, s => ([], k, finished, s)
  | left + 1, k, finished, s =>
    let s := s.look (· = k)
    if s.buf k ≠ 0 then
      let (bytes, k', finished, s') := fillChunk left (k + 1) finished s
      (s.buf k :: bytes, k', finished, s')
    else
      let (bytes, k', finished, s') := fillChunk left k true s
      (0 :: bytes, k', finished, s')

/-- The outer loop, at the word of index `i`. -/
def readWords : Nat → Nat → Nat → Buffers → Nat × Buffers
  | 0, _, k, s => (k, s)
  | left + 1, i, k, s =>
    let (bytes, k, finished, s) := fillChunk 4 k false s
    let s := s.writeMemory (readbufAddr i) (chunkWord bytes)
    if finished then (k, s) else readWords left (i + 1) k s

def jtag_readbuffer (s : Buffers) : Nat × Buffers := readWords BUF_WORDS 0 0 s

/-! ## `enet_recv` and `wireless_recv` -/

/-- `receive_all(buffer, length)`: it may use the indices below `length`; it stores the bytes it got and
returns their number, or stores nothing and returns -1. -/
def receive_all (length : Int) (got : Option (List Byte)) (s : Buffers) : Int × Buffers :=
  let s := s.look fun i => (i : Int) < length
  match got with
  | none => (-1, s)
  | some bytes => (bytes.length, s.put 0 bytes)

/-- `printf("%s")` of the buffer reads up to the first NUL. -/
def printString (s : Buffers) : Buffers := s.look fun i => (List.range i).all fun j => s.buf j ≠ 0

/-- What follows the receive in both functions. -/
def recvTail (ret : Int) (s : Buffers) : Word × Buffers :=
  if ret ≤ 0 then (0, s)
  else
    let s := s.store ret.toNat 0
    let (len, s) := s.jtag_readbuffer
    (BitVec.ofNat 32 len, s)

/-- It does not look at the size it is given. -/
def enet_recv (ethernet_open : Bool) (got : Option (List Byte)) (s : Buffers) : Word × Buffers :=
  if ethernet_open = false then (0, s)
  else
    let (ret, s) := s.receive_all BUF_SIZE got
    recvTail ret s.printString

def wireless_recv (wireless_open : Bool) (size : Word) (got : Option (List Byte)) (s : Buffers) :
    Word × Buffers :=
  if wireless_open = false then (0, s)
  else
    let (ret, s) := s.receive_all size.toInt got
    recvTail ret s

end Buffers

/-! ## What the loops do -/

namespace Buffers

theorem put_append (s : Buffers) (i : Nat) (l l' : List Byte) :
    s.put i (l ++ l') = (s.put i l).put (i + l.length) l' := by
  induction l generalizing s i with
  | nil => rfl
  | cons b l ih =>
    show (s.store i b).put (i + 1) (l ++ l') = _
    rw [ih]
    have hlen : i + 1 + l.length = i + (b :: l).length := by
      rw [List.length_cons]
      omega
    rw [hlen]
    rfl

@[simp] theorem put_mem (s : Buffers) (i : Nat) (l : List Byte) : (s.put i l).mem = s.mem := by
  induction l generalizing s i with
  | nil => rfl
  | cons b l ih => exact ih _ _

theorem put_touched (s : Buffers) (i : Nat) (l : List Byte) (k : Nat) :
    (s.put i l).touched k = (s.touched k || decide (i ≤ k ∧ k < i + l.length)) := by
  induction l generalizing s i with
  | nil =>
    have hno : ¬ (i ≤ k ∧ k < i + ([] : List Byte).length) := by
      rw [List.length_nil]
      omega
    rw [put, decide_eq_false hno, Bool.or_false]
  | cons b l ih =>
    rw [put, ih]
    show ((s.touched k || decide (k = i)) || _) = _
    rw [Bool.or_assoc, List.length_cons, ← Bool.decide_or]
    congr 2
    exact propext (by omega)

/-- The bytes put are there. -/
theorem put_buf (s : Buffers) (i : Nat) (l : List Byte) (k : Nat) :
    (s.put i l).buf k = if i ≤ k then l.getD (k - i) (s.buf k) else s.buf k := by
  induction l generalizing s i with
  | nil => simp [put]
  | cons b l ih =>
    rw [put, ih]
    show (if i + 1 ≤ k then l.getD (k - (i + 1)) (update s.buf i b k) else update s.buf i b k) = _
    rcases Nat.lt_trichotomy k i with hk | hk | hk
    · rw [if_neg (by omega), if_neg (by omega), update_of_ne (by omega)]
    · subst hk
      rw [if_neg (by omega), if_pos (Nat.le_refl k), update_self, Nat.sub_self]
      rfl
    · rw [if_pos (by omega), if_pos (by omega), update_of_ne (by omega)]
      have : k - i = k - (i + 1) + 1 := by omega
      rw [this, List.getD_cons_succ]

/-- The inner loop stores the bytes up to a NUL. -/
theorem writeChunk_run (bytes : List Byte) (len : Nat) (s : Buffers) :
    writeChunk bytes len s = (decide ((0 : Byte) ∈ bytes),
      len + (bytes.takeWhile (· ≠ 0)).length, s.put len (bytes.takeWhile (· ≠ 0))) := by
  induction bytes generalizing len s with
  | nil => rfl
  | cons b bytes ih =>
    rw [writeChunk]
    by_cases hb : b = 0
    · subst hb
      simp [put]
    · rw [if_pos hb, ih, List.takeWhile_cons_of_pos (by simpa using hb), List.length_cons]
      have hmem : (0 : Byte) ∈ b :: bytes ↔ (0 : Byte) ∈ bytes :=
        ⟨fun h => (List.mem_cons.mp h).resolve_left (Ne.symm hb), List.mem_cons_of_mem b⟩
      simp only [hmem, put]
      congr 2
      omega

theorem writeWords_run (left : Nat) : ∀ (i len : Nat) (s : Buffers),
    writeWords left i len s =
      (len + (unpack ((List.range' i left).map fun i => s.mem (writebufAddr i))).length,
        s.put len (unpack ((List.range' i left).map fun i => s.mem (writebufAddr i)))) := by
  induction left with
  | zero => exact fun _ _ _ => rfl
  | succ left ih =>
    intro i len s
    rw [writeWords, writeChunk_run, List.range'_succ, List.map_cons]
    simp only
    by_cases hz : (0 : Byte) ∈ chunkBytes (s.mem (writebufAddr i))
    · rw [unpack_cons_zero hz, if_pos (decide_eq_true hz)]
    · have hnot : ¬ decide ((0 : Byte) ∈ chunkBytes (s.mem (writebufAddr i))) = true := by
        rw [decide_eq_false hz]
        exact Bool.false_ne_true
      rw [unpack_cons_full hz, put_append, List.length_append, if_neg hnot, ih]
      simp only [put_mem, Nat.add_assoc]

/-- **`jtag_writebuffer`** stores the string in WRITEBUF with its terminator, and returns its length. -/
theorem jtag_writebuffer_run (s : Buffers) :
    s.jtag_writebuffer = ((unpack (writebuf s.mem)).length, s.put 0 (unpack (writebuf s.mem) ++ [0])) := by
  have hbuf : writebuf s.mem = (List.range' 0 BUF_WORDS).map fun i => s.mem (writebufAddr i) := by
    rw [writebuf, List.range_eq_range']
  rw [jtag_writebuffer, writeWords_run, ← hbuf, put_append, Nat.zero_add]
  rfl

/-! ## `jtag_writebuffer` inside its buffer -/

end Buffers

/-- The bytes of WRITEBUF. -/
def writebufBytes (mem : Word → Word) : List Byte := (writebuf mem).flatMap chunkBytes

/-- The string in a list is shorter than `n` where there is a NUL before index `n`. -/
theorem takeWhile_length_lt (l : List Byte) : ∀ n ≤ l.length,
    ((l.takeWhile (· ≠ 0)).length < n ↔ ∃ i, i < n ∧ l[i]? = some 0) := by
  induction l with
  | nil =>
    intro n hn
    rw [List.length_nil] at hn
    constructor
    · intro h
      omega
    · rintro ⟨i, hi, -⟩
      omega
  | cons b l ih =>
    intro n hn
    by_cases hb : b = 0
    · subst hb
      rw [List.takeWhile_cons_of_neg (by simp), List.length_nil]
      constructor
      · intro h
        exact ⟨0, h, rfl⟩
      · rintro ⟨i, hi, -⟩
        omega
    · rw [List.takeWhile_cons_of_pos (by simpa using hb), List.length_cons]
      cases n with
      | zero =>
        constructor
        · intro h
          omega
        · rintro ⟨i, hi, -⟩
          omega
      | succ n =>
        have hrec := ih n (by rw [List.length_cons] at hn; omega)
        constructor
        · intro h
          obtain ⟨i, hi, hz⟩ := hrec.mp (by omega)
          exact ⟨i + 1, by omega, hz⟩
        · rintro ⟨i, hi, hz⟩
          cases i with
          | zero => exact absurd (Option.some.inj hz) hb
          | succ i =>
            have := hrec.mpr ⟨i, by omega, hz⟩
            omega

theorem length_flatMap_chunkBytes (ws : List Word) : (ws.flatMap chunkBytes).length = 4 * ws.length := by
  induction ws with
  | nil => rfl
  | cons w ws ih =>
    rw [List.flatMap_cons, List.length_append, ih, List.length_cons]
    show 4 + 4 * ws.length = _
    omega

/-- The first byte of each word. -/
theorem flatMap_chunkBytes_getElem? (ws : List Word) : ∀ j : Nat,
    (ws.flatMap chunkBytes)[4 * j]? = ws[j]?.map fun w => w.extractLsb' 0 8 := by
  induction ws with
  | nil => exact fun _ => rfl
  | cons w ws ih =>
    intro j
    cases j with
    | zero => rfl
    | succ j =>
      have hpast : (chunkBytes w).length ≤ 4 * (j + 1) := by
        show 4 ≤ 4 * (j + 1)
        omega
      rw [List.flatMap_cons, List.getElem?_cons_succ, ← ih j, List.getElem?_append_right hpast]
      rfl

theorem length_writebufBytes (mem : Word → Word) : (writebufBytes mem).length = 124 := by
  rw [writebufBytes, length_flatMap_chunkBytes, writebuf, List.length_map, List.length_range]
  rfl

/-- **`jtag_writebuffer` keeps to a buffer of `BUF_SIZE` bytes** exactly when one of the first
`BUF_SIZE` bytes of WRITEBUF is a NUL. -/
theorem writebuffer_in_bounds_iff (mem : Word → Word) (buf : Nat → Byte) :
    (Buffers.before mem buf).jtag_writebuffer.2.InBounds ↔
      ∃ i, i < BUF_SIZE ∧ (writebufBytes mem)[i]? = some 0 := by
  have hlen := length_writebufBytes mem
  have htouch : ∀ i, (Buffers.before mem buf).jtag_writebuffer.2.touched i =
      decide (i ≤ (unpack (writebuf mem)).length) := by
    intro i
    rw [Buffers.jtag_writebuffer_run]
    show ((Buffers.before mem buf).put 0 (unpack (writebuf mem) ++ [0])).touched i = _
    rw [Buffers.put_touched, List.length_append]
    show (false || _) = _
    rw [Bool.false_or]
    exact decide_eq_decide.mpr (by rw [List.length_singleton]; omega)
  have hlt := takeWhile_length_lt (writebufBytes mem) BUF_SIZE (by rw [hlen]; decide)
  rw [← hlt]
  constructor
  · intro h
    exact h _ (by rw [htouch]; exact decide_eq_true (Nat.le_refl _))
  · intro h i hi
    rw [htouch, decide_eq_true_eq] at hi
    have : (unpack (writebuf mem)).length < BUF_SIZE := h
    omega

/-- A string of 124 bytes in WRITEBUF: the last five and the terminator go past the end. -/
theorem writebuffer_overruns :
    ¬ (Buffers.before (fun _ => 0x01010101) fun _ => 0).jtag_writebuffer.2.InBounds := by
  intro h
  have hlast := h 124 (by decide +kernel)
  exact absurd hlast (by decide)

/-! ## What `jtag_readbuffer` does -/

/-- Words written to READBUF from index `i` on. -/
def storeWords (mem : Word → Word) : Nat → List Word → Word → Word
  | _, [] => mem
  | i, w :: ws => storeWords (update mem (readbufAddr i) w) (i + 1) ws

theorem storeWords_of_ne (ws : List Word) : ∀ (mem : Word → Word) (i : Nat) (a : Word),
    (∀ j, i ≤ j → j < i + ws.length → a ≠ readbufAddr j) → storeWords mem i ws a = mem a := by
  induction ws with
  | nil => exact fun _ _ _ _ => rfl
  | cons w ws ih =>
    intro mem i a ha
    rw [List.length_cons] at ha
    rw [storeWords, ih _ _ _ fun j hj hj' => ha j (by omega) (by omega),
      update_of_ne (ha i (Nat.le_refl i) (by omega))]

theorem storeWords_get (ws : List Word) : ∀ (mem : Word → Word) (i j : Nat), i + ws.length ≤ 32 →
    j < ws.length → storeWords mem i ws (readbufAddr (i + j)) = ws.getD j 0 := by
  induction ws with
  | nil =>
    intro mem i j _ hj
    exact absurd hj (Nat.not_lt_zero j)
  | cons w ws ih =>
    intro mem i j hi hj
    rw [List.length_cons] at hi hj
    cases j with
    | zero =>
      rw [storeWords, storeWords_of_ne, Nat.add_zero, update_self]
      · rfl
      · intro j hij hj' heq
        have := readbufAddr_inj (by omega) (by omega) heq
        omega
    | succ j =>
      have := ih (update mem (readbufAddr i) w) (i + 1) j (by omega) (by omega)
      rw [storeWords, List.getD_cons_succ, ← this]
      congr 2
      omega

namespace Buffers

/-- The string in the buffer ends at index `L`. -/
structure EndsAt (s : Buffers) (L : Nat) : Prop where
  nul : s.buf L = 0
  text : ∀ j < L, s.buf j ≠ 0

/-- The bytes from index `k` up to `L`. -/
def text (s : Buffers) (k L : Nat) : List Byte := (List.range' k (L - k)).map s.buf

@[simp] theorem look_buf (s : Buffers) (f : Nat → Bool) : (s.look f).buf = s.buf := rfl

@[simp] theorem look_mem (s : Buffers) (f : Nat → Bool) : (s.look f).mem = s.mem := rfl

theorem look_look (s : Buffers) (f g : Nat → Bool) :
    (s.look f).look g = s.look fun i => f i || g i := by
  simp only [look, Bool.or_assoc]

theorem look_congr (s : Buffers) {f g : Nat → Bool} (h : ∀ i, f i = g i) : s.look f = s.look g := by
  rw [funext h]

theorem length_text (s : Buffers) (k L : Nat) : (s.text k L).length = L - k := by
  rw [text, List.length_map, List.length_range']

theorem text_getD (s : Buffers) {k L j : Nat} :
    (s.text k L).getD j 0 = if k + j < L then s.buf (k + j) else 0 := by
  rw [text, List.getD_eq_getElem?_getD, List.getElem?_map]
  by_cases h : k + j < L
  · rw [if_pos h, List.getElem?_range' (by omega), Nat.one_mul]
    rfl
  · rw [if_neg h, List.getElem?_eq_none (by rw [List.length_range']; omega)]
    rfl

/-- The inner loop: the bytes up to the terminator, and NUL after it. -/
theorem fillChunk_run {L : Nat} (n : Nat) : ∀ (k : Nat) (finished : Bool) (s : Buffers), s.EndsAt L →
    k ≤ L → fillChunk n k finished s =
      ((List.range n).map (fun j => if k + j < L then s.buf (k + j) else 0), min (k + n) L,
        finished || decide (L < k + n), s.look fun i => decide (k ≤ i ∧ i ≤ L ∧ i < k + n)) := by
  induction n with
  | zero =>
    intro k finished s _ hk
    rw [fillChunk, Nat.add_zero, Nat.min_eq_left hk, decide_eq_false (by omega), Bool.or_false]
    have hno : ∀ i, decide (k ≤ i ∧ i ≤ L ∧ i < k) = false := fun i => decide_eq_false (by omega)
    simp [look, hno]
  | succ n ih =>
    intro k finished s hs hk
    have hs' : (s.look (· = k)).EndsAt L := ⟨hs.nul, hs.text⟩
    rw [fillChunk, List.range_succ_eq_map, List.map_cons, List.map_map]
    by_cases hkL : k < L
    · have hcond : (s.look (· = k)).buf k ≠ 0 := hs.text k hkL
      rw [if_pos hcond, ih (k + 1) finished _ hs' hkL]
      simp only [Prod.mk.injEq, look_buf, look_look]
      refine ⟨?_, by omega, ?_, look_congr s fun i => ?_⟩
      · rw [if_pos (show k + 0 < L from hkL)]
        congr 1
        refine List.map_congr_left fun j _ => ?_
        show _ = if k + (j + 1) < L then s.buf (k + (j + 1)) else 0
        rw [show k + 1 + j = k + (j + 1) by omega]
      · rw [show k + 1 + n = k + (n + 1) by omega]
      · rw [← Bool.decide_or]
        exact decide_eq_decide.mpr (by omega)
    · obtain rfl : k = L := by omega
      have hcond : ¬ (s.look (· = k)).buf k ≠ 0 := fun h => h hs.nul
      rw [if_neg hcond, ih k true _ hs' (Nat.le_refl k)]
      simp only [Prod.mk.injEq, look_buf, look_look]
      refine ⟨?_, by omega, ?_, look_congr s fun i => ?_⟩
      · rw [if_neg (show ¬ k + 0 < k from Nat.lt_irrefl k)]
        congr 1
        refine List.map_congr_left fun j _ => ?_
        show (if k + j < k then s.buf (k + j) else 0) = if k + (j + 1) < k then s.buf (k + (j + 1)) else 0
        rw [if_neg (by omega), if_neg (by omega)]
      · rw [Bool.true_or, decide_eq_true (show k < k + (n + 1) by omega), Bool.or_true]
      · rw [← Bool.decide_or]
        exact decide_eq_decide.mpr (by omega)

/-- The word of a chunk is that of the string from there on. -/
theorem chunkWord_chunk (s : Buffers) (k L : Nat) :
    chunkWord ((List.range 4).map fun j => if k + j < L then s.buf (k + j) else 0) =
      chunkWord (s.text k L) := by
  unfold chunkWord
  simp only [text_getD]
  rfl

theorem text_drop (s : Buffers) (k L : Nat) : (s.text k L).drop 4 = s.text (k + 4) L := by
  rw [text, text, ← List.map_drop, List.drop_range', Nat.mul_one]
  rfl

/-- The outer loop: it ends with the string or with the words it may write. -/
theorem readWords_run {L : Nat} (left : Nat) : ∀ (i k : Nat) (s : Buffers), s.EndsAt L → k ≤ L →
    readWords left i k s =
      (min (k + 4 * left) L, { s.look (fun x => decide (k ≤ x ∧ x ≤ L ∧ x < k + 4 * left)) with
        mem := storeWords s.mem i (packWords left (s.text k L)) }) := by
  induction left with
  | zero =>
    intro i k s _ hk
    have hlook : s.look (fun x => decide (k ≤ x ∧ x ≤ L ∧ x < k + 4 * 0)) = s := by
      have hno : ∀ x, decide (k ≤ x ∧ x ≤ L ∧ x < k + 4 * 0) = false :=
        fun x => decide_eq_false (by omega)
      simp only [look, hno, Bool.or_false]
    rw [hlook, Nat.mul_zero, Nat.add_zero, Nat.min_eq_left hk]
    rfl
  | succ left ih =>
    intro i k s hs hk
    rw [readWords, fillChunk_run 4 k false s hs hk]
    simp only [chunkWord_chunk, Bool.false_or]
    rw [packWords, length_text]
    by_cases hlast : L < k + 4
    · rw [if_pos (decide_eq_true hlast), if_pos (by omega), Nat.min_eq_right (by omega),
        Nat.min_eq_right (by omega)]
      have hlook : s.look (fun x => decide (k ≤ x ∧ x ≤ L ∧ x < k + 4)) =
          s.look fun x => decide (k ≤ x ∧ x ≤ L ∧ x < k + 4 * (left + 1)) :=
        look_congr s fun x => decide_eq_decide.mpr (by omega)
      rw [hlook]
      rfl
    · have hnot : ¬ decide (L < k + 4) = true := by simpa using hlast
      rw [if_neg hnot, if_neg (by omega), Nat.min_eq_left (by omega), text_drop]
      have hs' : ((s.look fun x => decide (k ≤ x ∧ x ≤ L ∧ x < k + 4)).writeMemory (readbufAddr i)
          (chunkWord (s.text k L))).EndsAt L := ⟨hs.nul, hs.text⟩
      rw [ih (i + 1) (k + 4) _ hs' (by omega)]
      have hlook : ∀ x, ((s.touched x || decide (k ≤ x ∧ x ≤ L ∧ x < k + 4)) ||
          decide (k + 4 ≤ x ∧ x ≤ L ∧ x < k + 4 + 4 * left)) =
            (s.touched x || decide (k ≤ x ∧ x ≤ L ∧ x < k + 4 * (left + 1))) := by
        intro x
        rw [Bool.or_assoc, ← Bool.decide_or]
        congr 1
        exact decide_eq_decide.mpr (by omega)
      simp only [look, writeMemory, hlook]
      rw [show k + 4 + 4 * left = k + 4 * (left + 1) by omega]
      rfl

/-- **`jtag_readbuffer`** writes the string in the buffer to READBUF, returns its length and reads up to
its terminator. -/
theorem jtag_readbuffer_run {s : Buffers} {L : Nat} (hs : s.EndsAt L) (hL : L < 4 * BUF_WORDS) :
    s.jtag_readbuffer = (L, { s.look (fun x => decide (x ≤ L)) with
      mem := storeWords s.mem 0 (packWords BUF_WORDS (s.text 0 L)) }) := by
  rw [jtag_readbuffer, readWords_run BUF_WORDS 0 0 s hs (Nat.zero_le L), Nat.min_eq_right (by omega)]
  have hlook : s.look (fun x => decide (0 ≤ x ∧ x ≤ L ∧ x < 0 + 4 * BUF_WORDS)) =
      s.look fun x => decide (x ≤ L) :=
    look_congr s fun x => decide_eq_decide.mpr (by omega)
  rw [hlook]

/-! ## Receiving inside the buffer -/

theorem look_touched {s : Buffers} {f : Nat → Bool} {i : Nat} (h : s.touched i = true) :
    (s.look f).touched i = true := by
  show (s.touched i || f i) = true
  rw [h, Bool.true_or]

theorem fillChunk_touched (n : Nat) : ∀ (k : Nat) (finished : Bool) (s : Buffers) (i : Nat),
    s.touched i = true → (fillChunk n k finished s).2.2.2.touched i = true := by
  induction n with
  | zero => exact fun _ _ _ _ h => h
  | succ n ih =>
    intro k finished s i h
    rw [fillChunk]
    split
    · exact ih _ _ _ i (look_touched h)
    · exact ih _ _ _ i (look_touched h)

theorem readWords_touched (left : Nat) : ∀ (i k : Nat) (s : Buffers) (x : Nat),
    s.touched x = true → (readWords left i k s).2.touched x = true := by
  induction left with
  | zero => exact fun _ _ _ _ h => h
  | succ left ih =>
    intro i k s x h
    rw [readWords]
    split
    rename_i bytes k' finished s' heq
    have hs' : s'.touched x = true := by
      have := fillChunk_touched 4 k false s x h
      rwa [heq] at this
    split
    · exact hs'
    · exact ih _ _ _ x hs'

theorem InBounds.of_look {s : Buffers} {f : Nat → Bool} :
    (s.look f).InBounds ↔ s.InBounds ∧ ∀ i, f i = true → i < BUF_SIZE := by
  constructor
  · intro h
    refine ⟨fun i hi => h i (look_touched hi), fun i hi => h i ?_⟩
    show (s.touched i || f i) = true
    rw [hi, Bool.or_true]
  · rintro ⟨h, hf⟩ i hi
    rcases Bool.or_eq_true_iff.mp hi with hi | hi
    · exact h i hi
    · exact hf i hi

/-- Up to the terminator there is a first NUL. -/
theorem exists_endsAt {s : Buffers} {r : Nat} (h : s.buf r = 0) : ∃ L, L ≤ r ∧ s.EndsAt L := by
  have hex : ∃ L, s.buf L = 0 := ⟨r, h⟩
  exact ⟨Nat.find hex, Nat.find_min' hex h, Nat.find_spec hex, fun j hj => Nat.find_min hex hj⟩

/-- After the receive both functions keep to the buffer where the terminator does. -/
theorem recvTail_inBounds (ret : Int) (s : Buffers) :
    (recvTail ret s).2.InBounds ↔ s.InBounds ∧ (0 < ret → ret.toNat < BUF_SIZE) := by
  rw [recvTail]
  by_cases hret : ret ≤ 0
  · rw [if_pos hret]
    exact ⟨fun h => ⟨h, fun hpos => absurd hret (by omega)⟩, fun h => h.1⟩
  · rw [if_neg hret]
    show (s.store ret.toNat 0).jtag_readbuffer.2.InBounds ↔ _
    constructor
    · intro h
      refine ⟨fun i hi => h i ?_, fun _ => h _ ?_⟩
      · refine readWords_touched _ _ _ _ i ?_
        show (s.touched i || decide (i = ret.toNat)) = true
        rw [hi, Bool.true_or]
      · refine readWords_touched _ _ _ _ _ ?_
        show (s.touched ret.toNat || decide (ret.toNat = ret.toNat)) = true
        simp
    · rintro ⟨hs, hr⟩
      have hr := hr (by omega)
      obtain ⟨L, hL, hend⟩ := exists_endsAt (s := s.store ret.toNat 0) (update_self ret.toNat 0 s.buf)
      have hbuf : BUF_SIZE < 4 * BUF_WORDS := by decide
      rw [jtag_readbuffer_run hend (by omega)]
      intro i hi
      have hi' : ((s.touched i || decide (i = ret.toNat)) || decide (i ≤ L)) = true := hi
      simp only [Bool.or_eq_true, decide_eq_true_eq] at hi'
      rcases hi' with (hi' | hi') | hi'
      · exact hs i hi'
      · omega
      · omega

end Buffers

/-- What `receive_all` may answer: no more bytes than it is asked for. -/
def Receives (length : Int) (got : Option (List Byte)) : Prop :=
  ∀ bytes, got = some bytes → (bytes.length : Int) ≤ length

/-- The byte at an index of the buffer after the receive. -/
def received (buf : Nat → Byte) (got : Option (List Byte)) (i : Nat) : Byte :=
  match got with
  | none => buf i
  | some bytes => bytes.getD i (buf i)

theorem receive_all_inBounds {length : Int} {got : Option (List Byte)} (hgot : Receives length got)
    (mem : Word → Word) (buf : Nat → Byte) :
    ((Buffers.before mem buf).receive_all length got).2.InBounds ↔ length ≤ BUF_SIZE := by
  have hlook : ((Buffers.before mem buf).look fun i => decide ((i : Int) < length)).InBounds ↔
      length ≤ BUF_SIZE := by
    rw [Buffers.InBounds.of_look]
    constructor
    · rintro ⟨-, h⟩
      by_contra hlen
      have := h BUF_SIZE (decide_eq_true (by omega))
      omega
    · intro h
      refine ⟨fun _ hi => (Bool.false_ne_true hi).elim, fun i hi => ?_⟩
      have := of_decide_eq_true hi
      omega
  cases got with
  | none => exact hlook
  | some bytes =>
    rw [← hlook]
    have hle := hgot bytes rfl
    constructor
    · intro h i hi
      refine h i ?_
      show (Buffers.put _ 0 bytes).touched i = true
      rw [Buffers.put_touched, hi, Bool.true_or]
    · intro h i hi
      have hi' : (Buffers.put _ 0 bytes).touched i = true := hi
      rw [Buffers.put_touched, Bool.or_eq_true, decide_eq_true_eq] at hi'
      rcases hi' with hi' | hi'
      · exact h i hi'
      · refine h i ?_
        show (false || decide ((i : Int) < length)) = true
        rw [Bool.false_or]
        exact decide_eq_true (by omega)

theorem receive_all_buf (length : Int) (got : Option (List Byte)) (mem : Word → Word)
    (buf : Nat → Byte) (i : Nat) :
    ((Buffers.before mem buf).receive_all length got).2.buf i = received buf got i := by
  cases got with
  | none => rfl
  | some bytes =>
    show (Buffers.put _ 0 bytes).buf i = _
    rw [Buffers.put_buf, if_pos (Nat.zero_le i), Nat.sub_zero]
    rfl

/-- Printing the buffer as a string keeps to it where there is a NUL in it. -/
theorem printString_inBounds (s : Buffers) :
    s.printString.InBounds ↔ s.InBounds ∧ ∃ i, i < BUF_SIZE ∧ s.buf i = 0 := by
  rw [Buffers.printString, Buffers.InBounds.of_look]
  refine and_congr_right fun _ => ?_
  constructor
  · intro h
    by_contra hno
    have := h BUF_SIZE (List.all_eq_true.mpr fun j hj => decide_eq_true fun hz =>
      hno ⟨j, List.mem_range.mp hj, hz⟩)
    omega
  · rintro ⟨i, hi, hz⟩ k hk
    by_contra hki
    have := List.all_eq_true.mp hk i (List.mem_range.mpr (by omega))
    simp [hz] at this

theorem enet_recv_open (s : Buffers) (got : Option (List Byte)) :
    s.enet_recv true got =
      Buffers.recvTail (s.receive_all BUF_SIZE got).1 (s.receive_all BUF_SIZE got).2.printString := by
  rw [Buffers.enet_recv, if_neg (by decide)]

theorem wireless_recv_open (s : Buffers) (size : Word) (got : Option (List Byte)) :
    s.wireless_recv true size got =
      Buffers.recvTail (s.receive_all size.toInt got).1 (s.receive_all size.toInt got).2 := by
  rw [Buffers.wireless_recv, if_neg (by decide)]

/-- The terminator fits where fewer than `BUF_SIZE` bytes were received. -/
theorem receive_all_short (length : Int) (got : Option (List Byte)) (s : Buffers) :
    (0 < (s.receive_all length got).1 → (s.receive_all length got).1.toNat < BUF_SIZE) ↔
      ∀ bytes, got = some bytes → bytes.length < BUF_SIZE := by
  cases got with
  | none =>
    constructor
    · intro _ bytes h
      cases h
    · intro _ h
      have h : (0 : Int) < -1 := h
      omega
  | some bytes =>
    show (0 < (bytes.length : Int) → bytes.length < BUF_SIZE) ↔ _
    have hpos : 0 < BUF_SIZE := by decide
    constructor
    · rintro h _ ⟨⟩
      by_cases h0 : bytes.length = 0
      · omega
      · exact h (by omega)
    · intro h _
      exact h bytes rfl

/-- **When the receiving functions keep to their buffers.**  `enet_recv`: where the link is closed, or
there is a NUL among the `BUF_SIZE` bytes after the receive and it received fewer than `BUF_SIZE`.
`wireless_recv`: where the link is closed, or the size, as the `int` it is passed as, is at most
`BUF_SIZE` and it received fewer. -/
theorem recv_in_bounds_iff (mem : Word → Word) (buf : Nat → Byte) (isOpen : Bool) (size : Word)
    (got : Option (List Byte)) :
    (Receives BUF_SIZE got →
      (((Buffers.before mem buf).enet_recv isOpen got).2.InBounds ↔
        (isOpen = true → (∃ i, i < BUF_SIZE ∧ received buf got i = 0) ∧
          ∀ bytes, got = some bytes → bytes.length < BUF_SIZE))) ∧
    (Receives size.toInt got →
      (((Buffers.before mem buf).wireless_recv isOpen size got).2.InBounds ↔
        (isOpen = true → size.toInt ≤ BUF_SIZE ∧
          ∀ bytes, got = some bytes → bytes.length < BUF_SIZE))) := by
  constructor
  · intro hgot
    cases isOpen with
    | false =>
      constructor
      · intro _ h
        cases h
      · intro _ i hi
        cases hi
    | true =>
      rw [enet_recv_open, Buffers.recvTail_inBounds, printString_inBounds, receive_all_inBounds hgot,
        receive_all_short]
      simp only [receive_all_buf, forall_const, Int.le_refl, true_and]
  · intro hgot
    cases isOpen with
    | false =>
      constructor
      · intro _ h
        cases h
      · intro _ i hi
        cases hi
    | true =>
      rw [wireless_recv_open, Buffers.recvTail_inBounds, receive_all_inBounds hgot,
        receive_all_short]
      simp only [forall_const]

/-- The Ethernet link open and 100 bytes received, with a NUL among those left before; 100 asked of the
wireless link. -/
theorem recv_in_bounds_hundred :
    ((Buffers.before (fun _ => 0) fun _ => 0).enet_recv true (some (List.replicate 100 1))).2.InBounds ∧
      ((Buffers.before (fun _ => 0) fun _ => 1).wireless_recv true 100
        (some (List.replicate 100 1))).2.InBounds := by
  have hshort : ∀ bytes, some (List.replicate 100 (1 : Byte)) = some bytes → bytes.length < BUF_SIZE := by
    rintro _ ⟨⟩
    decide
  have h := recv_in_bounds_iff (fun _ => 0) (fun _ => 0) true 100 (some (List.replicate 100 1))
  have h' := recv_in_bounds_iff (fun _ => 0) (fun _ => 1) true 100 (some (List.replicate 100 1))
  refine ⟨(h.1 ?_).mpr fun _ => ⟨⟨110, by decide, by decide⟩, hshort⟩,
    (h'.2 ?_).mpr fun _ => ⟨by decide, hshort⟩⟩
  · rintro _ ⟨⟩
    decide
  · rintro _ ⟨⟩
    decide

/-- The full `BUF_SIZE` bytes received by `enet_recv`, a receive that fails where no NUL is left from
before, and a size of 121 for `wireless_recv`. -/
theorem recv_overruns :
    (Receives BUF_SIZE (some (List.replicate 120 1)) ∧
      ¬ ((Buffers.before (fun _ => 0) fun _ => 0).enet_recv true
        (some (List.replicate 120 1))).2.InBounds) ∧
    (Receives BUF_SIZE none ∧
      ¬ ((Buffers.before (fun _ => 0) fun _ => 1).enet_recv true none).2.InBounds) ∧
    (Receives (121 : Word).toInt none ∧
      ¬ ((Buffers.before (fun _ => 0) fun _ => 0).wireless_recv true 121 none).2.InBounds) := by
  have hnone : ∀ length, Receives length none := fun _ _ h => nomatch h
  have hfull : Receives BUF_SIZE (some (List.replicate 120 1)) := by
    rintro _ ⟨⟩
    rw [List.length_replicate]
    decide
  have hret : ((Buffers.before (fun _ => 0) fun _ => 0).receive_all BUF_SIZE
      (some (List.replicate 120 1))).1 = 120 := by
    show ((List.replicate 120 (1 : Byte)).length : Int) = 120
    rw [List.length_replicate]
    rfl
  refine ⟨⟨hfull, fun h => ?_⟩, ⟨hnone _, fun h => ?_⟩, hnone _, fun h => ?_⟩
  · rw [enet_recv_open, Buffers.recvTail_inBounds, hret] at h
    exact absurd (h.2 (by decide)) (by decide)
  · rw [enet_recv_open, Buffers.recvTail_inBounds, printString_inBounds] at h
    obtain ⟨i, -, hi⟩ := h.1.2
    rw [receive_all_buf] at hi
    exact absurd hi (show (1 : Byte) ≠ 0 by decide)
  · rw [wireless_recv_open, Buffers.recvTail_inBounds, receive_all_inBounds (hnone _)] at h
    exact absurd h.1 (by decide)

/-! ## A message that arrives -/

/-- The reply is in READBUF, with its terminator before ACK_RETURN_VAL. -/
structure Shown (mem : Word → Word) (reply : List Byte) : Prop where
  short : reply.length ≤ 119
  text : ∀ b ∈ reply, b ≠ 0
  words : ∀ j w, (packWords BUF_WORDS reply)[j]? = some w → mem (readbufAddr j) = w

/-- The words of a short reply end before ACK_RETURN_VAL. -/
theorem lt_of_short {reply : List Byte} (h : reply.length ≤ 119) {j : Nat} {w : Word}
    (hw : (packWords BUF_WORDS reply)[j]? = some w) : j < 30 := by
  have hlen := length_packWords BUF_WORDS 29 reply (by omega)
  have hj := (List.getElem?_eq_some_iff.mp hw).1
  omega

/-- The two acknowledge words are not among them. -/
theorem Shown.update_ack {mem : Word → Word} {reply : List Byte} (h : Shown mem reply) {a v : Word}
    (ha : a = ACK_RETURN_VAL ∨ a = ACK_TYPE) : Shown (update mem a v) reply := by
  refine ⟨h.short, h.text, fun j w hw => ?_⟩
  have hj := lt_of_short h.short hw
  have hne : readbufAddr j ≠ a := by
    intro he
    rcases ha with rfl | rfl
    · have := readbufAddr_inj (i := j) (j := 30) (by omega) (by omega) he
      omega
    · have := readbufAddr_inj (i := j) (j := 31) (by omega) (by omega) he
      omega
  rw [update_of_ne hne]
  exact h.words j w hw

/-- What the chip reads from READBUF is the reply. -/
theorem Shown.unpack_readbuf {mem : Word → Word} {reply : List Byte} (h : Shown mem reply) :
    unpack (readbuf mem) = reply := by
  refine unpack_of_words BUF_WORDS reply h.text
    (Nat.lt_of_le_of_lt h.short (by decide : 119 < 4 * BUF_WORDS)) fun j w hw => ?_
  have hj := lt_of_short h.short hw
  have hjb : j < BUF_WORDS := Nat.lt_trans hj (by decide)
  rw [readbuf, List.getElem?_map, List.getElem?_range hjb, Option.map_some, h.words j w hw]

/-- Words stored are shown. -/
theorem Shown.of_storeWords {mem : Word → Word} {reply : List Byte} (hlen : reply.length ≤ 119)
    (htext : ∀ b ∈ reply, b ≠ 0) : Shown (storeWords mem 0 (packWords BUF_WORDS reply)) reply := by
  refine ⟨hlen, htext, fun j w hw => ?_⟩
  have hj := (List.getElem?_eq_some_iff.mp hw).1
  have hle : (packWords BUF_WORDS reply).length ≤ 31 := length_packWords_le BUF_WORDS reply
  have hget := storeWords_get (packWords BUF_WORDS reply) mem 0 j (by omega) hj
  rw [Nat.zero_add] at hget
  rw [hget, List.getD_eq_getElem?_getD, hw]
  rfl

/-- The string that begins the bytes received ends at the first NUL, or at the terminator. -/
theorem Buffers.endsAt_store {s : Buffers} {p : List Byte}
    (hbuf : ∀ j < p.length, p[j]? = some (s.buf j)) :
    (s.store p.length 0).EndsAt (p.takeWhile (· ≠ 0)).length := by
  have hle := (List.takeWhile_prefix (l := p) (p := (· ≠ 0))).length_le
  have hbefore : ∀ j < (p.takeWhile (· ≠ 0)).length, p[j]? ≠ some 0 := by
    intro j hj hz
    have := (takeWhile_length_lt p _ hle).mpr ⟨j, hj, hz⟩
    omega
  constructor
  · show update s.buf p.length 0 _ = 0
    by_cases hL : (p.takeWhile (· ≠ 0)).length < p.length
    · obtain ⟨i, hi, hz⟩ := (takeWhile_length_lt p _ hL).mp (Nat.lt_succ_self _)
      have : i = (p.takeWhile (· ≠ 0)).length := by
        by_contra hne
        exact hbefore i (by omega) hz
      rw [update_of_ne (by omega), ← this]
      rw [hbuf i (by omega)] at hz
      exact Option.some.inj hz
    · rw [show (p.takeWhile (· ≠ 0)).length = p.length by omega, update_self]
  · intro j hj hz
    have hz : update s.buf p.length 0 j = 0 := hz
    rw [update_of_ne (by omega)] at hz
    exact hbefore j hj (by rw [hbuf j (by omega), hz])

theorem Buffers.text_store {s : Buffers} {p : List Byte}
    (hbuf : ∀ j < p.length, p[j]? = some (s.buf j)) :
    (s.store p.length 0).text 0 (p.takeWhile (· ≠ 0)).length = p.takeWhile (· ≠ 0) := by
  have hpre := List.takeWhile_prefix (l := p) (p := (· ≠ 0))
  have hle := hpre.length_le
  refine List.ext_getElem? fun j => ?_
  by_cases hj : j < (p.takeWhile (· ≠ 0)).length
  · rw [List.getElem?_eq_getElem hj, hpre.getElem hj, ← List.getElem?_eq_getElem, hbuf j (by omega),
      Buffers.text, List.getElem?_map, List.getElem?_range' (by omega)]
    show some (update s.buf p.length 0 (0 + 1 * j)) = _
    rw [update_of_ne (by omega), Nat.zero_add, Nat.one_mul]
  · rw [List.getElem?_eq_none (by rw [Buffers.length_text]; omega), List.getElem?_eq_none (by omega)]

theorem Buffers.recvTail_run {s : Buffers} {p : List Byte} (hpos : 0 < p.length)
    (hlen : p.length ≤ BUF_SIZE) (hbuf : ∀ j < p.length, p[j]? = some (s.buf j)) :
    (recvTail p.length s).1 = BitVec.ofNat 32 (p.takeWhile (· ≠ 0)).length ∧
      (recvTail p.length s).2.mem =
        storeWords s.mem 0 (packWords BUF_WORDS (p.takeWhile (· ≠ 0))) := by
  have hle := (List.takeWhile_prefix (l := p) (p := (· ≠ 0))).length_le
  have hwords : BUF_SIZE < 4 * BUF_WORDS := by decide
  have hread := jtag_readbuffer_run (endsAt_store hbuf) (by omega)
  rw [text_store hbuf] at hread
  rw [recvTail, if_neg (by omega), Int.toNat_natCast]
  simp only [hread]
  exact ⟨trivial, rfl⟩

/-- **What a receive does to the memory**: the words of `Service.received` are written and its length
is returned, as `data_recv_loop` has it in the model of the loops. -/
theorem enet_recv_run (mem : Word → Word) (buf : Nat → Byte) (arg : Word) {p : List Byte}
    (hpos : 0 < p.length) (hlen : p.length ≤ BUF_SIZE) :
    ((Buffers.before mem buf).enet_recv true (some p)).1 =
        (Outcome.replied .enet_recv (Service.received .enet_recv arg p)).rtn ∧
      ((Buffers.before mem buf).enet_recv true (some p)).2.mem =
        storeWords mem 0 (packWords BUF_WORDS (Service.received .enet_recv arg p)) := by
  have hreceived : Service.received .enet_recv arg p = p.takeWhile (· ≠ 0) := by
    show (p.take BUF_SIZE).takeWhile (· ≠ 0) = _
    rw [List.take_of_length_le hlen]
  have hle := (List.takeWhile_prefix (l := p) (p := (· ≠ 0))).length_le
  have hwords : BUF_SIZE < 4 * BUF_WORDS := by decide
  have hbuf : ∀ j < p.length, p[j]? =
      some (((Buffers.before mem buf).receive_all BUF_SIZE (some p)).2.printString.buf j) := by
    intro j hj
    rw [Buffers.printString, Buffers.look_buf, receive_all_buf, received,
      List.getD_eq_getElem?_getD, List.getElem?_eq_getElem hj]
    rfl
  have hmem : ((Buffers.before mem buf).receive_all BUF_SIZE (some p)).2.printString.mem = mem := by
    rw [Buffers.printString, Buffers.look_mem]
    exact Buffers.put_mem _ _ _
  have hrun := Buffers.recvTail_run hpos hlen hbuf
  rw [hmem] at hrun
  rw [enet_recv_open, hreceived, Outcome.replied, Nat.min_eq_left (by omega)]
  exact hrun

/-- `data_recv_loop` on RECV_TYPE_ENET, `p` received: the memory at the pulse of `ack_intr`. -/
def enetReply (mem : Word → Word) (buf : Nat → Byte) (p : List Byte) : Word → Word :=
  let (rtn, s) := (Buffers.before mem buf).enet_recv true (some p)
  update (update s.mem ACK_RETURN_VAL rtn) ACK_TYPE ENET_RECV_ACK

/-- The memory at the pulse: the words of the message, then the two acknowledge words. -/
theorem enetReply_eq (mem : Word → Word) (buf : Nat → Byte) {p : List Byte} (hnul : ∀ b ∈ p, b ≠ 0)
    (hpos : 1 ≤ p.length) (hlen : p.length ≤ BUF_SIZE) :
    enetReply mem buf p = update (update (storeWords mem 0 (packWords BUF_WORDS p)) ACK_RETURN_VAL
      (BitVec.ofNat 32 p.length)) ACK_TYPE ENET_RECV_ACK := by
  have hstring : p.takeWhile (· ≠ 0) = p :=
    List.takeWhile_eq_self_iff.mpr fun b hb => decide_eq_true (hnul b hb)
  have hwords : BUF_SIZE < 4 * BUF_WORDS := by decide
  have hreceived : Service.received .enet_recv 0 p = p := by
    show (p.take BUF_SIZE).takeWhile (· ≠ 0) = p
    rw [List.take_of_length_le hlen, hstring]
  obtain ⟨hrtn, hmem⟩ := enet_recv_run mem buf 0 hpos hlen
  rw [hreceived, Outcome.replied, Nat.min_eq_left (by omega)] at hrtn
  rw [hreceived] at hmem
  rw [enetReply, ← hmem]
  simp only [hrtn]

theorem enetReply_ack_return_val (mem : Word → Word) (buf : Nat → Byte) {p : List Byte}
    (hnul : ∀ b ∈ p, b ≠ 0) (hpos : 1 ≤ p.length) (hlen : p.length ≤ BUF_SIZE) :
    enetReply mem buf p ACK_RETURN_VAL = BitVec.ofNat 32 p.length := by
  rw [enetReply_eq mem buf hnul hpos hlen, update_of_ne (by decide), update_self]

/-- A message of `BUF_SIZE` bytes has its terminator where ACK_RETURN_VAL is: what the chip reads goes
on with the low byte of its length. -/
theorem enetReply_full (mem : Word → Word) (buf : Nat → Byte) {p : List Byte} (hnul : ∀ b ∈ p, b ≠ 0)
    (hlen : p.length = BUF_SIZE) : unpack (readbuf (enetReply mem buf p)) ≠ p := by
  intro hread
  have hret := enetReply_ack_return_val mem buf hnul (by rw [hlen]; decide) (Nat.le_of_eq hlen)
  have hbytes : ((readbuf (enetReply mem buf p)).flatMap chunkBytes).length = 124 := by
    rw [length_flatMap_chunkBytes, readbuf, List.length_map, List.length_range]
    rfl
  have hend : (((readbuf (enetReply mem buf p)).flatMap chunkBytes).takeWhile (· ≠ 0)).length = 120 :=
    (congrArg List.length hread).trans hlen
  -- the string would have to end at byte 120, the low byte of ACK_RETURN_VAL
  obtain ⟨i, hi, hz⟩ := (takeWhile_length_lt _ 121 (by rw [hbytes]; decide)).mp (by rw [hend]; decide)
  have hi : i = 4 * 30 := by
    by_contra hne
    have := (takeWhile_length_lt _ 120 (by rw [hbytes]; decide)).mpr ⟨i, by omega, hz⟩
    omega
  have hword : (readbuf (enetReply mem buf p))[30]? = some (BitVec.ofNat 32 BUF_SIZE) := by
    rw [readbuf, List.getElem?_map, List.getElem?_range (by decide)]
    show some (enetReply mem buf p ACK_RETURN_VAL) = _
    rw [hret, hlen]
  rw [hi, flatMap_chunkBytes_getElem?, hword] at hz
  exact absurd hz (by decide)

/-- **A received message reaches the chip as it was sent** exactly when it is shorter than the
buffer: the string in READBUF at the pulse is the message, ACK_RETURN_VAL its length, and ACK_TYPE
the acknowledge code. -/
theorem enet_recv_intact_iff (mem : Word → Word) (buf : Nat → Byte) (p : List Byte)
    (hnul : ∀ b ∈ p, b ≠ 0) (hpos : 1 ≤ p.length) (hlen : p.length ≤ BUF_SIZE) :
    (unpack (readbuf (enetReply mem buf p)) = p ∧
        enetReply mem buf p ACK_RETURN_VAL = BitVec.ofNat 32 p.length ∧
        enetReply mem buf p ACK_TYPE = ENET_RECV_ACK) ↔
      p.length < BUF_SIZE := by
  have hret := enetReply_ack_return_val mem buf hnul hpos hlen
  have hreply := enetReply_eq mem buf hnul hpos hlen
  constructor
  · rintro ⟨hread, -, -⟩
    by_contra hfull
    exact enetReply_full mem buf hnul (Nat.le_antisymm hlen (Nat.not_lt.mp hfull)) hread
  · intro hshort
    have hshown : Shown (storeWords mem 0 (packWords BUF_WORDS p)) p :=
      .of_storeWords (Nat.le_of_lt_succ hshort) hnul
    have hack : enetReply mem buf p ACK_TYPE = ENET_RECV_ACK := by rw [hreply, update_self]
    refine ⟨?_, hret, hack⟩
    rw [hreply]
    exact ((hshown.update_ack (.inl rfl)).update_ack (.inr rfl)).unpack_readbuf

/-- Three letters arrive. -/
theorem enet_recv_intact_abc :
    unpack (readbuf (enetReply (fun _ => 0) (fun _ => 1) [0x61, 0x62, 0x63])) = [0x61, 0x62, 0x63] ∧
      enetReply (fun _ => 0) (fun _ => 1) [0x61, 0x62, 0x63] ACK_RETURN_VAL = 3 ∧
      enetReply (fun _ => 0) (fun _ => 1) [0x61, 0x62, 0x63] ACK_TYPE = ENET_RECV_ACK :=
  (enet_recv_intact_iff (fun _ => 0) (fun _ => 1) [0x61, 0x62, 0x63] (by decide) (by decide)
    (by decide)).mpr (by decide)

/-- A message of 120 letters does not. -/
theorem enet_recv_not_intact :
    (∀ b ∈ List.replicate 120 (0x41 : Byte), b ≠ 0) ∧
      1 ≤ (List.replicate 120 (0x41 : Byte)).length ∧
      (List.replicate 120 (0x41 : Byte)).length ≤ BUF_SIZE ∧
      unpack (readbuf (enetReply (fun _ => 0) (fun _ => 0) (List.replicate 120 0x41))) ≠
        List.replicate 120 0x41 := by
  have hnul : ∀ b ∈ List.replicate 120 (0x41 : Byte), b ≠ 0 := by
    intro b hb
    rw [List.eq_of_mem_replicate hb]
    decide
  have hlen : (List.replicate 120 (0x41 : Byte)).length = BUF_SIZE := List.length_replicate
  refine ⟨hnul, ?_, Nat.le_of_eq hlen, enetReply_full _ _ hnul hlen⟩
  rw [hlen]
  decide

end Expedition
