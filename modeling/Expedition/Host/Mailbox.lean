import Expedition.Dap.Blocks
import Expedition.Host.Buffers

/-!
# The two mailbox codecs

`jtag_readbuffer` writes a string to READBUF and `jtag_writebuffer` reads one from WRITEBUF, four bytes
to a word.

* `jtag_readbuffer_writes` — for a string of any length: what is in READBUF afterwards, what is left as
  it was, and how far the string was read.
* `jtag_writebuffer_echo` — with a chip that copies the one area to the other, a string of up to 124
  bytes comes back; and `jtag_writebuffer` reads the longest NUL-free prefix of any content.
* `Driver.jtag_readbuffer_refines`, `Driver.jtag_writebuffer_refines` — the functions over the JTAG
  driver do to the target what they do over plain memory.
-/

namespace Expedition

open Function

/-! ## Words and bytes -/

/-- A string with its terminator: the bytes of the string, and NUL. -/
theorem terminated_byte (s : List Byte) (d : Byte) {k : Nat} (hk : k < s.length) :
    (s ++ [0]).getD k d = s.get ⟨k, hk⟩ := by
  rw [List.getD_eq_getElem?_getD, List.getElem?_append_left hk, List.getElem?_eq_getElem hk]
  rfl

theorem terminated_end (s : List Byte) (d : Byte) : (s ++ [0]).getD s.length d = 0 := by
  rw [List.getD_eq_getElem?_getD, List.getElem?_concat_length]
  rfl

/-- A byte of a list of words. -/
theorem flatMap_chunkBytes_byte (ws : List Word) (i : Nat) {j : Nat} (hj : j < 4) :
    (ws.flatMap chunkBytes)[4 * i + j]? = ws[i]?.bind fun w => (chunkBytes w)[j]? := by
  induction ws generalizing i with
  | nil => rfl
  | cons w ws ih =>
    have hlen : (chunkBytes w).length = 4 := rfl
    rw [List.flatMap_cons]
    cases i with
    | zero =>
      rw [List.getElem?_append_left (by omega), Nat.mul_zero, Nat.zero_add]
      rfl
    | succ i =>
      rw [List.getElem?_append_right (by omega), hlen, List.getElem?_cons_succ, ← ih i,
        show 4 * (i + 1) + j - 4 = 4 * i + j by omega]

/-- A byte of the word of a chunk. -/
theorem chunkBytes_chunkWord_byte (s : List Byte) {j : Nat} (hj : j < 4) :
    (chunkBytes (chunkWord s))[j]? = some (s.getD j 0) := by
  rw [chunkBytes_chunkWord]
  match j, hj with
  | 0, _ => rfl
  | 1, _ => rfl
  | 2, _ => rfl
  | 3, _ => rfl

/-- The words of a string: one for each four bytes begun, and one more where it fills its words. -/
theorem packWords_getElem? (n : Nat) (s : List Byte) (i : Nat) :
    (packWords n s)[i]? =
      if i < n ∧ 4 * i ≤ s.length then some (chunkWord (s.drop (4 * i))) else none := by
  induction n generalizing s i with
  | zero =>
    rw [if_neg (by omega)]
    rfl
  | succ n ih =>
    rw [packWords]
    cases i with
    | zero =>
      have hin : 0 < n + 1 ∧ 4 * 0 ≤ s.length := by omega
      exact (if_pos hin).symm
    | succ i =>
      rw [List.getElem?_cons_succ]
      by_cases hshort : s.length < 4
      · rw [if_pos hshort, if_neg (by omega)]
        rfl
      · rw [if_neg hshort, ih, List.length_drop, List.drop_drop]
        by_cases hi : i < n ∧ 4 * i ≤ s.length - 4
        · rw [if_pos hi, if_pos (by omega), show 4 + 4 * i = 4 * (i + 1) by omega]
        · rw [if_neg hi, if_neg (by omega)]

/-- The bytes of READBUF. -/
def readbufBytes (mem : Word → Word) : List Byte := (readbuf mem).flatMap chunkBytes

theorem length_readbufBytes (mem : Word → Word) : (readbufBytes mem).length = 124 := by
  rw [readbufBytes, length_flatMap_chunkBytes, readbuf, List.length_map, List.length_range]
  rfl

theorem readbufBytes_byte (mem : Word → Word) {x : Nat} (hx : x < 124) :
    (readbufBytes mem)[x]? = (chunkBytes (mem (readbufAddr (x / 4))))[x % 4]? := by
  have hwords : BUF_WORDS = 31 := rfl
  have hsplit := flatMap_chunkBytes_byte (readbuf mem) (x / 4) (Nat.mod_lt x (by decide : 0 < 4))
  rw [show 4 * (x / 4) + x % 4 = x by omega] at hsplit
  rw [readbufBytes, hsplit, readbuf, List.getElem?_map, List.getElem?_range (by omega)]
  rfl

/-! ## Writing READBUF -/

/-- A word of READBUF after the words of a string are stored. -/
theorem storeWords_packWords (mem : Word → Word) (t : List Byte) {i : Nat} (hi : i < BUF_WORDS) :
    storeWords mem 0 (packWords BUF_WORDS t) (readbufAddr i) =
      if 4 * i ≤ t.length then chunkWord (t.drop (4 * i)) else mem (readbufAddr i) := by
  have hwords : BUF_WORDS = 31 := rfl
  have hget := packWords_getElem? BUF_WORDS t i
  have hle := length_packWords_le BUF_WORDS t
  by_cases h : 4 * i ≤ t.length
  · rw [if_pos ⟨hi, h⟩] at hget
    obtain ⟨hlt, -⟩ := List.getElem?_eq_some_iff.mp hget
    have hstored := storeWords_get (packWords BUF_WORDS t) mem 0 i (by omega) hlt
    rw [Nat.zero_add] at hstored
    rw [if_pos h, hstored, List.getD_eq_getElem?_getD, hget, Option.getD_some]
  · rw [if_neg (by omega)] at hget
    rw [if_neg h]
    refine storeWords_of_ne _ _ _ _ fun j _ hj heq => ?_
    have hij := readbufAddr_inj (by omega) (by omega) heq
    have := List.getElem?_eq_none_iff.mp hget
    omega

namespace Buffers

/-- **`jtag_readbuffer` for a string of any length.** -/
theorem jtag_readbuffer_run_any {s : Buffers} {L : Nat} (hs : s.EndsAt L) :
    s.jtag_readbuffer = (min L 124, { s.look (fun x => decide (x ≤ L ∧ x < 124)) with
      mem := storeWords s.mem 0 (packWords BUF_WORDS (s.text 0 L)) }) := by
  rw [jtag_readbuffer, readWords_run BUF_WORDS 0 0 s hs (Nat.zero_le L),
    show 0 + 4 * BUF_WORDS = 124 from rfl, Nat.min_comm]
  have hlook : s.look (fun x => decide (0 ≤ x ∧ x ≤ L ∧ x < 124)) =
      s.look fun x => decide (x ≤ L ∧ x < 124) :=
    look_congr s fun x => decide_eq_decide.mpr (by omega)
  rw [hlook]

/-- The bytes of READBUF up to the end of the last word written: the string, and NUL after it. -/
theorem jtag_readbuffer_byte {s : Buffers} {L : Nat} (hs : s.EndsAt L) {x : Nat} (hx : x < 124)
    (hxL : 4 * (x / 4) ≤ L) :
    (readbufBytes s.jtag_readbuffer.2.mem)[x]? = some (if x < L then s.buf x else 0) := by
  have hwords : BUF_WORDS = 31 := rfl
  rw [readbufBytes_byte _ hx, jtag_readbuffer_run_any hs]
  show (chunkBytes (storeWords s.mem 0 (packWords BUF_WORDS (s.text 0 L)) (readbufAddr (x / 4))))[x % 4]? = _
  rw [storeWords_packWords s.mem _ (by omega), length_text, Nat.sub_zero, if_pos hxL,
    chunkBytes_chunkWord_byte _ (Nat.mod_lt x (by decide)), List.getD_eq_getElem?_getD,
    List.getElem?_drop, show 4 * (x / 4) + x % 4 = x by omega, ← List.getD_eq_getElem?_getD, text_getD,
    Nat.zero_add]

end Buffers

def READBUF_END : Word := 0x240001FC

theorem readbufAddr_toNat {i : Nat} (hi : i < 32) :
    (readbufAddr i).toNat = READBUF_BEGIN.toNat + 4 * i := by
  have hbegin : READBUF_BEGIN.toNat = 0x24000180 := rfl
  rw [readbufAddr, BitVec.toNat_add, BitVec.toNat_ofNat, hbegin]
  omega

/-- **`jtag_readbuffer`, for every string and every memory.**  It returns the length, cut to the 124
bytes of the area; the area begins with the string; where the string is shorter the rest of its last
word is NUL and the words after that are as they were; so is everything outside the area; and the
string is not read past its terminator. -/
theorem jtag_readbuffer_writes (mem : Word → Word) (buf : Nat → Byte) (L : Nat)
    (hs : (Buffers.before mem buf).EndsAt L) :
    let r := (Buffers.before mem buf).jtag_readbuffer
    r.1 = min L 124 ∧
      (∀ k < r.1, (readbufBytes r.2.mem)[k]? = some (buf k)) ∧
      (L < 124 → ∀ k, L ≤ k → k < 4 * (L / 4 + 1) → (readbufBytes r.2.mem)[k]? = some 0) ∧
      (∀ i, L / 4 < i → i < BUF_WORDS → r.2.mem (readbufAddr i) = mem (readbufAddr i)) ∧
      (∀ a : Word, ¬ (READBUF_BEGIN.toNat ≤ a.toNat ∧ a.toNat < READBUF_END.toNat) →
        r.2.mem a = mem a) ∧
      ∀ i, r.2.touched i = true → i ≤ L := by
  have hwords : BUF_WORDS = 31 := rfl
  have hrun := Buffers.jtag_readbuffer_run_any hs
  have hmem : (Buffers.before mem buf).jtag_readbuffer.2.mem =
      storeWords mem 0 (packWords BUF_WORDS ((Buffers.before mem buf).text 0 L)) := by
    rw [hrun]
    rfl
  refine ⟨by rw [hrun], fun k hk => ?_, fun hL k hk hk' => ?_, fun i hi hi' => ?_, fun a ha => ?_,
    fun i hi => ?_⟩
  · rw [hrun] at hk
    have hk' : k < min L 124 := hk
    rw [Buffers.jtag_readbuffer_byte hs (by omega) (by omega), if_pos (by omega)]
    rfl
  · rw [Buffers.jtag_readbuffer_byte hs (by omega) (by omega), if_neg (by omega)]
  · rw [hmem, storeWords_packWords mem _ hi', Buffers.length_text, if_neg (by omega)]
  · rw [hmem]
    refine storeWords_of_ne _ _ _ _ fun j _ hj heq => ha ?_
    have hle := length_packWords_le BUF_WORDS ((Buffers.before mem buf).text 0 L)
    have hbegin : READBUF_BEGIN.toNat = 0x24000180 := rfl
    have hend : READBUF_END.toNat = 0x240001FC := rfl
    rw [heq, readbufAddr_toNat (by omega)]
    omega
  · rw [hrun] at hi
    have hi' : (false || decide (i ≤ L ∧ i < 124)) = true := hi
    rw [Bool.false_or, decide_eq_true_eq] at hi'
    exact hi'.1

/-- A string of five bytes over a memory of ones. -/
def fiveBytes (i : Nat) : Byte := if i < 5 then 65 else 0

theorem fiveBytes_endsAt (mem : Word → Word) : (Buffers.before mem fiveBytes).EndsAt 5 := by
  refine ⟨rfl, fun j hj => ?_⟩
  show (if j < 5 then (65 : Byte) else 0) ≠ 0
  rw [if_pos hj]
  decide

theorem jtag_readbuffer_writes_five :
    (Buffers.before (fun _ => 1) fiveBytes).jtag_readbuffer.1 = 5 ∧
      (Buffers.before (fun _ => 1) fiveBytes).jtag_readbuffer.2.mem ACK_TYPE = 1 := by
  obtain ⟨hlen, -, -, -, hother, -⟩ := jtag_readbuffer_writes (fun _ => 1) fiveBytes 5
    (fiveBytes_endsAt _)
  exact ⟨hlen, hother ACK_TYPE (by decide)⟩

/-! ## Reading WRITEBUF -/

/-- What `jtag_writebuffer` leaves: the string in WRITEBUF in the buffer, its terminator, and the memory
as it was. -/
theorem jtag_writebuffer_reads (mem : Word → Word) (out : Nat → Byte) :
    let t := (Buffers.before mem out).jtag_writebuffer
    t.1 = ((writebufBytes mem).takeWhile (· ≠ 0)).length ∧
      (List.range t.1).map t.2.buf = (writebufBytes mem).takeWhile (· ≠ 0) ∧ t.2.buf t.1 = 0 ∧
      t.2.mem = mem ∧ ∀ i, t.2.touched i = true → i ≤ t.1 := by
  rw [Buffers.jtag_writebuffer_run]
  have hbuf : ∀ k, ((Buffers.before mem out).put 0 (unpack (writebuf mem) ++ [0])).buf k =
      (unpack (writebuf mem) ++ [0]).getD k (out k) := by
    intro k
    rw [Buffers.put_buf, if_pos (Nat.zero_le k)]
    rfl
  refine ⟨rfl, ?_, ?_, Buffers.put_mem _ _ _, fun i hi => ?_⟩
  · refine List.ext_getElem (by rw [List.length_map, List.length_range]; rfl) fun k hk hk' => ?_
    have hlt : k < (unpack (writebuf mem)).length := hk'
    rw [List.getElem_map, List.getElem_range]
    exact (hbuf k).trans (terminated_byte _ _ hlt)
  · show ((Buffers.before mem out).put 0 (unpack (writebuf mem) ++ [0])).buf
      (unpack (writebuf mem)).length = 0
    rw [hbuf]
    exact terminated_end _ _
  · have hi' : ((Buffers.before mem out).put 0 (unpack (writebuf mem) ++ [0])).touched i = true := hi
    rw [Buffers.put_touched, List.length_append, List.length_singleton] at hi'
    have hlt : decide (0 ≤ i ∧ i < 0 + ((unpack (writebuf mem)).length + 1)) = true := hi'
    rw [decide_eq_true_eq] at hlt
    show i ≤ (unpack (writebuf mem)).length
    omega

/-! ## The echo -/

/-- The chip copies words of READBUF to WRITEBUF, from index `i` on. -/
def copyWords : Nat → Nat → (Word → Word) → Word → Word
  | 0, _, mem => mem
  | left + 1, i, mem => copyWords left (i + 1) (update mem (writebufAddr i) (mem (readbufAddr i)))

/-- The chip echoes the 31 words of READBUF. -/
def echo (mem : Word → Word) : Word → Word := copyWords BUF_WORDS 0 mem

theorem writebufAddr_inj {i j : Nat} (hi : i < 32) (hj : j < 32) (h : writebufAddr i = writebufAddr j) :
    i = j := by
  unfold writebufAddr WRITEBUF_BEGIN at h
  have := congrArg BitVec.toNat h
  simp only [BitVec.toNat_add, BitVec.toNat_ofNat] at this
  omega

theorem copyWords_writebuf (left : Nat) : ∀ (i : Nat) (mem : Word → Word) (j : Nat), i + left ≤ 31 →
    j < 31 → copyWords left i mem (writebufAddr j) =
      if i ≤ j ∧ j < i + left then mem (readbufAddr j) else mem (writebufAddr j) := by
  induction left with
  | zero =>
    intro i mem j _ _
    rw [if_neg (by omega)]
    rfl
  | succ left ih =>
    intro i mem j hi hj
    rw [copyWords, ih (i + 1) _ j (by omega) hj,
      update_of_ne (Ne.symm (writebufAddr_ne_readbufAddr (by omega) (by omega)))]
    by_cases hij : j = i
    · subst hij
      rw [if_neg (by omega), if_pos (by omega), update_self]
    · rw [update_of_ne fun h => hij (writebufAddr_inj (by omega) (by omega) h)]
      by_cases hin : i + 1 ≤ j ∧ j < i + 1 + left
      · rw [if_pos hin, if_pos (by omega)]
      · rw [if_neg hin, if_neg (by omega)]

/-- After the echo WRITEBUF holds what READBUF held. -/
theorem writebufBytes_echo (mem : Word → Word) : writebufBytes (echo mem) = readbufBytes mem := by
  have hwords : BUF_WORDS = 31 := rfl
  have hsame : writebuf (echo mem) = readbuf mem := by
    refine List.map_congr_left fun j hj => ?_
    rw [List.mem_range] at hj
    rw [echo, copyWords_writebuf BUF_WORDS 0 mem j (by omega) (by omega), if_pos (by omega)]
  rw [writebufBytes, readbufBytes, hsame]

/-- The string at the beginning of a list of bytes, read off byte by byte. -/
theorem takeWhile_eq_map {l : List Byte} {f : Nat → Byte} {L : Nat} (hL : L ≤ l.length)
    (h : ∀ k < L, l[k]? = some (f k)) (hne : ∀ k < L, f k ≠ 0)
    (hend : L < l.length → l[L]? = some 0) : l.takeWhile (· ≠ 0) = (List.range L).map f := by
  induction l generalizing f L with
  | nil =>
    obtain rfl : L = 0 := Nat.le_zero.mp hL
    rfl
  | cons b l ih =>
    cases L with
    | zero =>
      have hb : b = 0 := Option.some.inj (hend (Nat.succ_pos _))
      rw [List.takeWhile_cons_of_neg (by simp [hb])]
      rfl
    | succ L =>
      have hb : b = f 0 := Option.some.inj (h 0 (Nat.succ_pos L))
      have hrest := ih (f := fun k => f (k + 1)) (Nat.le_of_succ_le_succ hL)
        (fun k hk => h (k + 1) (Nat.succ_lt_succ hk)) (fun k hk => hne (k + 1) (Nat.succ_lt_succ hk))
        fun hlt => hend (Nat.succ_lt_succ hlt)
      have hb0 : b ≠ 0 := by
        rw [hb]
        exact hne 0 (Nat.succ_pos L)
      rw [List.takeWhile_cons_of_pos (by simpa using hb0), hrest, List.range_succ_eq_map, List.map_cons,
        List.map_map, hb]
      rfl

/-- A string of up to 124 bytes that was written to READBUF is the string there. -/
theorem readbufBytes_string {s : Buffers} {L : Nat} (hs : s.EndsAt L) (hL : L ≤ 124) :
    (readbufBytes s.jtag_readbuffer.2.mem).takeWhile (· ≠ 0) = (List.range L).map s.buf := by
  have hlen := length_readbufBytes s.jtag_readbuffer.2.mem
  refine takeWhile_eq_map (by omega) (fun k hk => ?_) hs.text fun hlt => ?_
  · rw [Buffers.jtag_readbuffer_byte hs (by omega) (by omega), if_pos hk]
  · rw [Buffers.jtag_readbuffer_byte hs (by omega) (by omega), if_neg (Nat.lt_irrefl L)]

/-- **The two codecs are inverse.**  A string of up to 124 bytes that the chip echoes comes back as it was,
with its terminator, inside a buffer of 125 bytes, whatever was in the areas before; and whatever is
in WRITEBUF, `jtag_writebuffer` takes the longest NUL-free prefix of its 124 bytes and leaves the
memory as it was. -/
theorem jtag_writebuffer_echo :
    (∀ (mem : Word → Word) (buf out : Nat → Byte) (L : Nat), (Buffers.before mem buf).EndsAt L →
      L ≤ 124 →
      let r := (Buffers.before mem buf).jtag_readbuffer
      let t := (Buffers.before (echo r.2.mem) out).jtag_writebuffer
      r.1 = L ∧ t.1 = L ∧ (∀ k < L, t.2.buf k = buf k) ∧ t.2.buf L = 0 ∧
        ∀ i, t.2.touched i = true → i < 125) ∧
    ∀ (mem : Word → Word) (out : Nat → Byte),
      let t := (Buffers.before mem out).jtag_writebuffer
      (List.range t.1).map t.2.buf = (writebufBytes mem).takeWhile (· ≠ 0) ∧ t.2.buf t.1 = 0 ∧
        t.2.mem = mem := by
  refine ⟨fun mem buf out L hs hL => ?_, fun mem out => ?_⟩
  · obtain ⟨hlen, htext, hnul, -, htouch⟩ := jtag_writebuffer_reads
      (echo (Buffers.before mem buf).jtag_readbuffer.2.mem) out
    rw [writebufBytes_echo, readbufBytes_string hs hL] at hlen htext
    rw [List.length_map, List.length_range] at hlen
    rw [hlen] at htext hnul htouch
    refine ⟨?_, hlen, fun k hk => ?_, hnul, fun i hi => ?_⟩
    · rw [Buffers.jtag_readbuffer_run_any hs]
      exact Nat.min_eq_left hL
    · exact List.map_inj_left.mp htext k (List.mem_range.mpr hk)
    · have := htouch i hi
      omega
  · obtain ⟨-, htext, hnul, hmem, -⟩ := jtag_writebuffer_reads mem out
    exact ⟨htext, hnul, hmem⟩

theorem jtag_writebuffer_echo_five :
    (Buffers.before (echo (Buffers.before (fun _ => 1) fiveBytes).jtag_readbuffer.2.mem)
      fun _ => 9).jtag_writebuffer.1 = 5 :=
  (jtag_writebuffer_echo.1 (fun _ => 1) fiveBytes (fun _ => 9) 5 (fiveBytes_endsAt _) (by decide)).2.1

/-! ## Over the driver -/

namespace Driver

open Exec

variable {σ : Type} [JtagDevice σ]

/-- The outer loop of `jtag_readbuffer`, with the words written by the driver. -/
def readWords : Nat → Nat → Nat → Buffers → Drv σ Nat
  | 0, _, k, _ => pure k
  | left + 1, i, k, s => do
    let (bytes, k, finished, s) := Buffers.fillChunk 4 k false s
    writeMemory (readbufAddr i) (chunkWord bytes)
    if finished then pure k else readWords left (i + 1) k s

def jtag_readbuffer (s : Buffers) : Drv σ Nat := readWords BUF_WORDS 0 0 s

/-- The outer loop of `jtag_writebuffer`, with the words read by the driver. -/
def writeWords : Nat → Nat → Nat → Buffers → Drv σ (Nat × Buffers)
  | 0, _, len, s => pure (len, s)
  | left + 1, i, len, s => do
    let word ← readMemory (writebufAddr i)
    let (finished, len, s) := Buffers.writeChunk (chunkBytes word) len s
    if finished then pure (len, s) else writeWords left (i + 1) len s

def jtag_writebuffer (s : Buffers) : Drv σ (Nat × Buffers) := do
  let (len, s) ← writeWords BUF_WORDS 0 0 s
  pure (len, s.store len 0)

theorem wordAlign_readbufAddr {i : Nat} (hi : i < 32) : wordAlign (readbufAddr i) = readbufAddr i := by
  apply wordAlign_of_aligned
  have hbegin : READBUF_BEGIN.toNat = 0x24000180 := rfl
  rw [readbufAddr_toNat hi, hbegin]
  omega

theorem wordAlign_writebufAddr (i : Nat) : wordAlign (writebufAddr i) = writebufAddr i := by
  apply wordAlign_of_aligned
  have hbegin : WRITEBUF_BEGIN.toNat = 0x24000100 := rfl
  rw [writebufAddr, BitVec.toNat_add, BitVec.toNat_ofNat, hbegin]
  omega

theorem readWords_yields {L : Nat} (left : Nat) : ∀ (i k : Nat) (s : Buffers) (g : Regs (Word → Word)),
    s.EndsAt L → k ≤ L → i + left ≤ 31 →
    ∃ g', Yields Rest (readWords left i k s) g (min (k + 4 * left) L) g' ∧
      g'.mem = storeWords g.mem i (packWords left (s.text k L)) := by
  induction left with
  | zero =>
    intro i k s g _ hk _
    rw [Nat.mul_zero, Nat.add_zero, Nat.min_eq_left hk]
    exact ⟨g, Yields.pure _ g, rfl⟩
  | succ left ih =>
    intro i k s g hs hk hi
    have hstore := writeMemory_yields (readbufAddr i) (chunkWord (s.text k L)) g
    have hmem : ((g.program.setTar (readbufAddr i)).writeDrw (chunkWord (s.text k L))).mem =
        update g.mem (readbufAddr i) (chunkWord (s.text k L)) := by
      show update g.mem (wordAlign (readbufAddr i)) _ = _
      rw [wordAlign_readbufAddr (by omega)]
    rw [readWords, Buffers.fillChunk_run 4 k false s hs hk]
    simp only [Buffers.chunkWord_chunk, Bool.false_or]
    rw [packWords, Buffers.length_text]
    by_cases hlast : L < k + 4
    · rw [if_pos (decide_eq_true hlast), if_pos (by omega), Nat.min_eq_right (by omega),
        Nat.min_eq_right (by omega)]
      exact ⟨_, Yields.bind hstore (Yields.pure _ _), hmem⟩
    · have hnot : ¬ decide (L < k + 4) = true := by simpa using hlast
      rw [if_neg hnot, if_neg (by omega), Nat.min_eq_left (by omega), Buffers.text_drop]
      have hs' : (s.look fun x => decide (k ≤ x ∧ x ≤ L ∧ x < k + 4)).EndsAt L := ⟨hs.nul, hs.text⟩
      obtain ⟨g', hrest, hmem'⟩ := ih (i + 1) (k + 4) _
        ((g.program.setTar (readbufAddr i)).writeDrw (chunkWord (s.text k L))) hs' (by omega) (by omega)
      rw [hmem] at hmem'
      rw [show k + 4 + 4 * left = k + 4 * (left + 1) by omega] at hrest
      exact ⟨g', Yields.bind hstore hrest, hmem'⟩

/-- **`jtag_readbuffer` over the driver** returns and leaves the target as over plain memory. -/
theorem jtag_readbuffer_refines {s : Buffers} {L : Nat} (hs : s.EndsAt L) {g : Regs (Word → Word)}
    (hg : g.mem = s.mem) :
    ∃ g', Yields Rest (jtag_readbuffer s) g s.jtag_readbuffer.1 g' ∧
      g'.mem = s.jtag_readbuffer.2.mem := by
  obtain ⟨g', hrun, hmem⟩ := readWords_yields BUF_WORDS 0 0 s g hs (Nat.zero_le L) (by decide)
  rw [Nat.min_comm] at hrun
  rw [Buffers.jtag_readbuffer_run_any hs, ← hg]
  exact ⟨g', hrun, hmem⟩

theorem writeChunk_mem (bytes : List Byte) (len : Nat) (s : Buffers) :
    (Buffers.writeChunk bytes len s).2.2.mem = s.mem := by
  rw [Buffers.writeChunk_run]
  exact Buffers.put_mem ..

theorem writeWords_yields (left : Nat) : ∀ (i len : Nat) (s : Buffers) (g : Regs (Word → Word)),
    g.mem = s.mem → i + left ≤ 31 →
    ∃ g', Yields Rest (writeWords left i len s) g (Buffers.writeWords left i len s) g' ∧
      g'.mem = s.mem := by
  induction left with
  | zero =>
    intro _ _ s g hg _
    exact ⟨g, Yields.pure _ g, hg⟩
  | succ left ih =>
    intro i len s g hg hi
    have hload := readMemory_yields (writebufAddr i) g
    have hword : (TargetBus.load (wordAlign (writebufAddr i)) g.mem).1 = s.mem (writebufAddr i) := by
      rw [wordAlign_writebufAddr, hg]
      rfl
    rw [hword] at hload
    have hsame : (g.afterReadMemory (writebufAddr i)).mem = s.mem := hg
    have hmem := writeChunk_mem (chunkBytes (s.mem (writebufAddr i))) len s
    rw [Buffers.writeWords]
    cases hchunk : Buffers.writeChunk (chunkBytes (s.mem (writebufAddr i))) len s with
    | mk finished r =>
      obtain ⟨len', s'⟩ := r
      rw [hchunk] at hmem
      cases finished with
      | true =>
        refine ⟨_, Yields.bind hload ?_, hsame⟩
        rw [hchunk]
        exact Yields.pure _ _
      | false =>
        obtain ⟨g', hrest, hmem'⟩ := ih (i + 1) len' s' _ (hsame.trans hmem.symm) (by omega)
        refine ⟨g', Yields.bind hload ?_, hmem'.trans hmem⟩
        rw [hchunk]
        exact hrest

/-- **`jtag_writebuffer` over the driver** returns what it does over plain memory and leaves the target's
memory as it was. -/
theorem jtag_writebuffer_refines {s : Buffers} {g : Regs (Word → Word)} (hg : g.mem = s.mem) :
    ∃ g', Yields Rest (jtag_writebuffer s) g s.jtag_writebuffer g' ∧ g'.mem = s.mem := by
  obtain ⟨g', hrun, hmem⟩ := writeWords_yields BUF_WORDS 0 0 s g hg (by decide)
  exact ⟨g', Yields.bind hrun (Yields.pure _ _), hmem⟩

end Driver

end Expedition
