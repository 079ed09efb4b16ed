import Expedition.Dap.Memory

/-!
# Blocks of words

`memRead` and `memWrite` move a block of words through the access port, which increments TAR by
itself after every transfer, inside a 4 KB page (`pageIncr`).  Both set TAR anew every 1024 words.

* `blockAddr` — the address the port is at for the word of index `j`: page after page, each walked
  round from where the base stands in its page.
* `memWrite_stores` — what `memWrite` stores, and `memRead_takes` what `memRead` returns and which
  reads it makes on the target's bus.
-/

namespace Expedition

open Exec

/-! ## Addresses -/

/-- The increment of a MEM-AP: it stays inside the 4 KB page. -/
def pageIncr (a : Word) : Word := BitVec.ofNat 32 (a.toNat / 4096 * 4096 + (a.toNat + 4) % 4096)

theorem wordAlign_eq (a : Word) : wordAlign a = BitVec.ofNat 32 (a.toNat / 4 * 4) := by
  have hmask : ∀ i < 32, (0xFFFFFFFC : Word).getLsbD i = decide (2 ≤ i) := by decide
  have hshift : wordAlign a = (a >>> 2) <<< 2 := by
    apply BitVec.eq_of_getLsbD_eq
    intro i hi
    unfold wordAlign
    rw [BitVec.getLsbD_and, hmask i hi, BitVec.getLsbD_shiftLeft, BitVec.getLsbD_ushiftRight]
    by_cases h2 : 2 ≤ i
    · simp [h2, hi, Nat.not_lt.mpr h2]
    · simp [h2, Nat.lt_of_not_le h2]
  apply BitVec.eq_of_toNat_eq
  rw [hshift, BitVec.toNat_shiftLeft, BitVec.toNat_ushiftRight, BitVec.toNat_ofNat,
    Nat.shiftRight_eq_div_pow, Nat.shiftLeft_eq]

/-- TAR after `r` transfers of chunk `i`. -/
def tarAt (base : Word) (i r : Nat) : Word := pageIncr^[r] (base + BitVec.ofNat 32 (4096 * i))

/-- The address of the word of index `j`. -/
def blockAddr (base : Word) (j : Nat) : Word := tarAt base (j / 1024) (j % 1024)

theorem pageIncr_toNat (a : Word) :
    (pageIncr a).toNat = a.toNat / 4096 * 4096 + (a.toNat + 4) % 4096 := by
  have := a.isLt
  rw [pageIncr, BitVec.toNat_ofNat]
  omega

theorem iterate_pageIncr_toNat (r : Nat) (a : Word) :
    (pageIncr^[r] a).toNat = a.toNat / 4096 * 4096 + (a.toNat + 4 * r) % 4096 := by
  induction r generalizing a with
  | zero =>
    rw [Function.iterate_zero, id]
    omega
  | succ r ih =>
    rw [Function.iterate_succ_apply, ih, pageIncr_toNat]
    omega

theorem tarAt_toNat (base : Word) (i r : Nat) :
    (tarAt base i r).toNat =
      (base.toNat + 4096 * i) % 2 ^ 32 / 4096 * 4096 + (base.toNat + 4 * r) % 4096 := by
  rw [tarAt, iterate_pageIncr_toNat, BitVec.toNat_add, BitVec.toNat_ofNat]
  omega

theorem tarAt_succ (base : Word) (i r : Nat) : tarAt base i (r + 1) = pageIncr (tarAt base i r) :=
  Function.iterate_succ_apply' ..

theorem wordAlign_of_aligned {a : Word} (h : a.toNat % 4 = 0) : wordAlign a = a := by
  rw [wordAlign_eq, show a.toNat / 4 * 4 = a.toNat by omega, BitVec.ofNat_toNat, BitVec.setWidth_eq]

theorem wordAlign_tarAt {base : Word} (h : base.toNat % 4 = 0) (i r : Nat) :
    wordAlign (tarAt base i r) = tarAt base i r := by
  apply wordAlign_of_aligned
  rw [tarAt_toNat]
  omega

theorem blockAddr_toNat (base : Word) (j : Nat) :
    (blockAddr base j).toNat =
      (base.toNat + 4096 * (j / 1024)) % 2 ^ 32 / 4096 * 4096 + (base.toNat + 4 * (j % 1024)) % 4096 :=
  tarAt_toNat ..

/-- The address of the word of index `j` in a block without page limits. -/
def wordAddr (base : Word) (j : Nat) : Word := base + BitVec.ofNat 32 (4 * j)

/-- A block keeps to its word addresses where no chunk of it leaves a page. -/
theorem blockAddr_eq {base : Word} {j : Nat}
    (h : base.toNat % 4096 = 0 ∨ base.toNat % 4096 + 4 * j < 4096) : blockAddr base j = wordAddr base j := by
  apply BitVec.eq_of_toNat_eq
  rw [blockAddr_toNat, wordAddr, BitVec.toNat_add, BitVec.toNat_ofNat]
  have := base.isLt
  rcases h with h | h <;> omega

/-- The addresses of a block are different. -/
theorem blockAddr_inj {base : Word} {size j k : Nat} (hbase : base.toNat % 4 = 0)
    (hfit : base.toNat + 4 * size ≤ 2 ^ 32) (hj : j < size) (hk : k < size)
    (h : blockAddr base j = blockAddr base k) : j = k := by
  have h' := congrArg BitVec.toNat h
  rw [blockAddr_toNat, blockAddr_toNat] at h'
  omega

/-! ## Writing -/

variable {μ : Type}

/-- The port in chunk `i` of a block at `base`, with `r` transfers made. -/
structure InChunk (base : Word) (i r : Nat) (g : Regs μ) : Prop where
  programmed : Programmed g
  incr : g.incr = pageIncr
  tar : g.tar = tarAt base i r

theorem inChunk_setTar {g : Regs μ} (hg : Programmed g) (hincr : g.incr = pageIncr) (base : Word)
    (i : Nat) : InChunk base i 0 (g.setTar (base + BitVec.ofNat 32 (4096 * i))) :=
  ⟨hg.setTar _, hincr, rfl⟩

/-- The loops carry the start of the next chunk along. -/
theorem next_chunk (base : Word) (i : Nat) :
    base + BitVec.ofNat 32 (4096 * i) + 1024 * 4 = base + BitVec.ofNat 32 (4096 * (i + 1)) := by
  apply BitVec.eq_of_toNat_eq
  have hpage : ((1024 : Word) * 4).toNat = 4096 := by decide
  simp only [BitVec.toNat_add, BitVec.toNat_ofNat, hpage]
  omega

/-- The indices of a block from chunk `i` on are those of the chunk and those of the chunks after it. -/
theorem chunk_range (size i : Nat) :
    List.range' (1024 * i) (size - 1024 * i) =
      List.range' (1024 * i) (min (1024 * (i + 1)) size - 1024 * i) ++
        List.range' (1024 * (i + 1)) (size - 1024 * (i + 1)) := by
  by_cases hlast : size ≤ 1024 * (i + 1)
  · rw [show size - 1024 * (i + 1) = 0 by omega, Nat.min_eq_right hlast]
    simp
  · rw [Nat.min_eq_left (by omega), show 1024 * (i + 1) - 1024 * i = 1024 by omega,
      show 1024 * (i + 1) = 1024 * i + 1024 by omega, List.range'_append_1,
      show 1024 + (size - (1024 * i + 1024)) = size - 1024 * i by omega]

variable [TargetBus μ]

/-- Store one word after the other. -/
def storeAll (m : μ) (l : List (Word × Word)) : μ :=
  l.foldl (fun m p => TargetBus.store p.1 p.2 m) m

theorem InChunk.writeDrw {base : Word} {i r : Nat} {g : Regs μ} (h : InChunk base i r g) (v : Word) :
    InChunk base i (r + 1) (g.writeDrw v) := by
  refine ⟨h.programmed.writeDrw v, h.incr, ?_⟩
  rw [tarAt_succ, ← h.tar, ← h.incr]
  rfl

/-- The stores of the words of index `j` and the `n - 1` that follow. -/
def blockStores (base : Word) (val : Nat → Word) (j n : Nat) : List (Word × Word) :=
  (List.range' j n).map fun k => (wordAlign (blockAddr base k), val k)

/-- The word `memWrite` writes for index `j`. -/
def blockWord (writedata : List Word) (zero : Bool) (j : Nat) : Word :=
  if zero then 0 else writedata.getD j 0

section Write

variable (base : Word) (writedata : List Word) (size : Nat) (zero : Bool)

/-- The `for` loop of `memWrite`, from index `j` to `n`, the end of the chunk or of the block. -/
theorem memWriteWords_stores (i left : Nat) :
    ∀ (j : Nat) (g : Regs μ), min (1024 * (i + 1)) size = j + left → 1024 * i ≤ j →
      InChunk base i (j - 1024 * i) g →
      ∃ g', Yields Rest (memWriteWords writedata size zero i j) g () g' ∧ Programmed g' ∧
        g'.incr = pageIncr ∧
        g'.mem = storeAll g.mem (blockStores base (blockWord writedata zero) j left) := by
  induction left with
  | zero =>
    intro j g hn hj hg
    rw [memWriteWords, if_neg (by omega)]
    exact ⟨g, Yields.pure _ g, hg.programmed, hg.incr, rfl⟩
  | succ left ih =>
    intro j g hn hj hg
    have hnext := hg.writeDrw (blockWord writedata zero j)
    rw [show j - 1024 * i + 1 = j + 1 - 1024 * i by omega] at hnext
    obtain ⟨g', hg', hprog, hincr, hmem⟩ := ih (j + 1) _ (by omega) (by omega) hnext
    have haddr : wordAlign (blockAddr base j) = wordAlign g.tar := by
      rw [hg.tar, blockAddr, show j / 1024 = i by omega, show j % 1024 = j - 1024 * i by omega]
    rw [memWriteWords, if_pos (by omega)]
    refine ⟨g', Yields.bind (hg.programmed.writeDrw_yields _ false) hg', hprog, hincr, ?_⟩
    rw [hmem, blockStores, blockStores, List.range'_succ, List.map_cons, haddr]
    rfl

/-- The `while` loop of `memWrite` from chunk `i` on. -/
theorem memWriteChunks_stores (fuel : Nat) :
    ∀ (i : Nat) (g : Regs μ), size - 1024 * i ≤ fuel → Programmed g → g.incr = pageIncr →
      ∃ g', Yields Rest (memWriteChunks writedata size zero i (base + BitVec.ofNat 32 (4096 * i))) g () g' ∧
        g'.incr = pageIncr ∧
        g'.mem = storeAll g.mem
          (blockStores base (blockWord writedata zero) (1024 * i) (size - 1024 * i)) := by
  induction fuel with
  | zero =>
    intro i g hi hg hincr
    rw [memWriteChunks, if_neg (by omega)]
    refine ⟨g, Yields.pure _ g, hincr, ?_⟩
    rw [show size - 1024 * i = 0 by omega]
    rfl
  | succ fuel ih =>
    intro i g hi hg hincr
    rw [memWriteChunks]
    split
    · have hchunk := inChunk_setTar hg hincr base i
      obtain ⟨g₁, h₁, hg₁, hincr₁, hmem₁⟩ := memWriteWords_stores base writedata size zero i
        (min (1024 * (i + 1)) size - 1024 * i) (1024 * i) _ (by omega) le_rfl
        (by rw [Nat.sub_self]; exact hchunk)
      obtain ⟨g', h', hincr', hmem'⟩ := ih (i + 1) g₁ (by omega) hg₁ hincr₁
      rw [← next_chunk] at h'
      refine ⟨g', Yields.bind (hg.writeTar_yields _ false) (Yields.bind h₁ h'), hincr', ?_⟩
      rw [hmem', hmem₁, blockStores, blockStores, blockStores, chunk_range size i, List.map_append]
      exact (List.foldl_append ..).symm
    · refine ⟨g, Yields.pure _ g, hincr, ?_⟩
      rw [show size - 1024 * i = 0 by omega]
      rfl

/-- **`memWrite`** stores the words of the block, one after the other. -/
theorem memWrite_stores {g : Regs μ} (hincr : g.incr = pageIncr) :
    ∃ g', Yields Rest (memWrite base writedata size zero) g () g' ∧ g'.incr = pageIncr ∧
      g'.mem = storeAll g.mem (blockStores base (blockWord writedata zero) 0 size) := by
  obtain ⟨g', h, hincr', hmem⟩ := memWriteChunks_stores base writedata size zero size 0 g.program
    (by omega) (program_programmed g) hincr
  have hprint : Yields Rest (when zero (mbed_printf ("Called with " ++ hex base.toNat ++ ", " ++
      hex (BitVec.ofInt 32 size).toNat ++ "\r\n"))) g () g := by
    cases zero
    · exact Yields.when_false
    · exact mbed_printf_yields _ g
  rw [show base + BitVec.ofNat 32 (4096 * 0) = base from BitVec.add_zero base] at h
  exact ⟨g', Yields.bind hprint (opening_yields h), hincr', hmem⟩

end Write

/-! ## Reading -/

theorem InChunk.readDrw {base : Word} {i r : Nat} {g : Regs μ} (h : InChunk base i r g) :
    InChunk base i (r + 1) g.readDrw := by
  refine ⟨h.programmed.readDrw, h.incr, ?_⟩
  rw [tarAt_succ, ← h.tar, ← h.incr]
  rfl

/-- The target's word of index `j` of a block at `base`. -/
def targetWord (base : Word) (m : μ) (j : Nat) : Word :=
  (TargetBus.load (wordAlign (blockAddr base j)) m).1

/-- `memRead`'s handling of the word of index `j` and the `n - 1` that follow. -/
def takeBlock (base : Word) (m : μ) (check : Bool) (j n : Nat) (acc : ReadAcc) : ReadAcc :=
  (List.range' j n).foldl (fun acc k => acc.take check k (targetWord base m k)) acc

/-- The bus reads of chunk `i` from its `r`-th transfer on. -/
def chunkReads (base : Word) (i r n : Nat) : List BusAccess :=
  (List.range' r n).map fun r => .read (wordAlign (tarAt base i r))

/-- The bus reads from chunk `i` on: in each chunk one more than it has words, because `rdBuff(false)`
reads DRW once more. -/
def blockReads (base : Word) (size i : Nat) : List BusAccess :=
  (List.range' i ((size + 1023) / 1024 - i)).flatMap fun i =>
    chunkReads base i 0 (min (1024 * (i + 1)) size - 1024 * i + 1)

theorem blockReads_chunk (base : Word) {size i : Nat} (h : 1024 * i < size) :
    blockReads base size i =
      chunkReads base i 0 (min (1024 * (i + 1)) size - 1024 * i + 1) ++ blockReads base size (i + 1) := by
  rw [blockReads, show (size + 1023) / 1024 - i = (size + 1023) / 1024 - (i + 1) + 1 by omega,
    List.range'_succ, List.flatMap_cons]
  rfl

theorem blockReads_end (base : Word) {size i : Nat} (h : ¬ 1024 * i < size) :
    blockReads base size i = [] := by
  rw [blockReads, show (size + 1023) / 1024 - i = 0 by omega]
  rfl

section Read

variable [PureLoad μ] (base : Word) (size : Nat) (check print : Bool)

/-- The `for` loop of `memRead`: the word of index `j - 1` is on its way. -/
theorem memReadWords_takes (i left : Nat) :
    ∀ (j : Nat) (acc : ReadAcc) (g : Regs μ), min (1024 * (i + 1)) size = j + left → 1024 * i < j →
      InChunk base i (j - 1024 * i) g → g.rdata = targetWord base g.mem (j - 1) →
      ∃ g', Yields Rest (memReadWords size check print i j acc) g
          (j + left, takeBlock base g.mem check (j - 1) left acc) g' ∧
        InChunk base i (j + left - 1024 * i) g' ∧ g'.mem = g.mem ∧
        g'.rdata = targetWord base g.mem (j + left - 1) ∧
        g'.bus = g.bus ++ chunkReads base i (j - 1024 * i) left := by
  induction left with
  | zero =>
    intro j acc g hn hj hg hdata
    rw [memReadWords, if_neg (by omega), Nat.add_zero]
    refine ⟨g, Yields.pure _ g, hg, rfl, hdata, ?_⟩
    rw [chunkReads, List.range'_zero, List.map_nil, List.append_nil]
  | succ left ih =>
    intro j acc g hn hj hg hdata
    have hnext := hg.readDrw
    rw [show j - 1024 * i + 1 = j + 1 - 1024 * i by omega] at hnext
    have hword : g.readDrw.rdata = targetWord base g.readDrw.mem (j + 1 - 1) := by
      rw [readDrw_mem, targetWord, blockAddr, show (j + 1 - 1) / 1024 = i by omega,
        show (j + 1 - 1) % 1024 = j - 1024 * i by omega, ← hg.tar]
      rfl
    obtain ⟨g', hg', hin, hmem, hrd, hbus⟩ := ih (j + 1) (acc.take check (j - 1) g.rdata) g.readDrw
      (by omega) (by omega) hnext hword
    rw [readDrw_mem] at hg' hmem hrd
    rw [memReadWords, if_pos (by omega)]
    refine ⟨g', ?_, ?_, hmem, ?_, ?_⟩
    · have htake : takeBlock base g.mem check (j - 1) (left + 1) acc =
          takeBlock base g.mem check (j + 1 - 1) left (acc.take check (j - 1) g.rdata) := by
        rw [takeBlock, List.range'_succ, List.foldl_cons, ← hdata, show j - 1 + 1 = j + 1 - 1 by omega]
        rfl
      rw [htake, show j + (left + 1) = j + 1 + left by omega]
      exact Yields.bind (hg.programmed.readDrw_yields false)
        (Yields.bind (takeWord_yields _ _ _ _ _ _) hg')
    · rw [show j + (left + 1) = j + 1 + left by omega]
      exact hin
    · rw [show j + (left + 1) - 1 = j + 1 + left - 1 by omega]
      exact hrd
    · rw [hbus, chunkReads, chunkReads, List.range'_succ, List.map_cons, ← hg.tar,
        show j - 1024 * i + 1 = j + 1 - 1024 * i by omega]
      exact List.append_assoc ..

omit [PureLoad μ] in
/-- Past the last word the `while` loop of `memRead` ends. -/
theorem memReadChunks_end {i : Nat} (hi : ¬ 1024 * i < size) (acc : ReadAcc) {g : Regs μ}
    (hincr : g.incr = pageIncr) :
    ∃ g', Yields Rest (memReadChunks size check print i (base + BitVec.ofNat 32 (4096 * i)) acc) g
        (takeBlock base g.mem check (1024 * i) (size - 1024 * i) acc) g' ∧
      g'.mem = g.mem ∧ g'.incr = pageIncr ∧ g'.bus = g.bus ++ blockReads base size i := by
  rw [memReadChunks, if_neg (by omega), show size - 1024 * i = 0 by omega, blockReads_end base hi,
    List.append_nil]
  exact ⟨g, Yields.pure _ g, rfl, hincr, rfl⟩

omit [PureLoad μ] in
/-- A chunk is taken word by word, the last one on its own. -/
theorem takeBlock_chunk {i left : Nat} (hleft : min (1024 * (i + 1)) size = 1024 * i + 1 + left)
    (mem : μ) (acc : ReadAcc) :
    takeBlock base mem check (1024 * i) (size - 1024 * i) acc =
      takeBlock base mem check (1024 * (i + 1)) (size - 1024 * (i + 1))
        ((takeBlock base mem check (1024 * i + 1 - 1) left acc).take check (1024 * i + 1 + left - 1)
          (targetWord base mem (1024 * i + 1 + left - 1))) := by
  rw [takeBlock, chunk_range size i, List.foldl_append,
    show min (1024 * (i + 1)) size - 1024 * i = left + 1 by omega, List.range'_1_concat,
    List.foldl_append, show 1024 * i + 1 + left - 1 = 1024 * i + left by omega,
    show 1024 * i + 1 - 1 = 1024 * i by omega]
  rfl

/-- The reads of a chunk: the one that starts it, those of the loop, and the one that ends it. -/
theorem chunkReads_split (i left : Nat) :
    chunkReads base i 0 (1 + left + 1) =
      chunkReads base i 0 1 ++ chunkReads base i 1 left ++ chunkReads base i (1 + left) 1 := by
  unfold chunkReads
  rw [← List.map_append, ← List.map_append, show 1 + left = 0 + (1 + left) by omega,
    show List.range' 1 left = List.range' (0 + 1) left from rfl, List.range'_append_1,
    List.range'_append_1, Nat.zero_add]

/-- The `while` loop of `memRead` from chunk `i` on. -/
theorem memReadChunks_takes (fuel : Nat) :
    ∀ (i : Nat) (acc : ReadAcc) (g : Regs μ), size - 1024 * i ≤ fuel → Programmed g →
      g.incr = pageIncr →
      ∃ g', Yields Rest (memReadChunks size check print i (base + BitVec.ofNat 32 (4096 * i)) acc) g
          (takeBlock base g.mem check (1024 * i) (size - 1024 * i) acc) g' ∧
        g'.mem = g.mem ∧ g'.incr = pageIncr ∧ g'.bus = g.bus ++ blockReads base size i := by
  induction fuel with
  | zero =>
    intro i acc g hi hg hincr
    exact memReadChunks_end base size check print (by omega) acc hincr
  | succ fuel ih =>
    intro i acc g hi hg hincr
    by_cases hmore : 1024 * i < size
    · -- the first read of the chunk, the loop, and the fetch of its last word
      have hchunk := (inChunk_setTar hg hincr base i).readDrw
      obtain ⟨left, hleft⟩ : ∃ left, min (1024 * (i + 1)) size = 1024 * i + 1 + left :=
        ⟨min (1024 * (i + 1)) size - (1024 * i + 1), by omega⟩
      have hfirst : (g.setTar (base + BitVec.ofNat 32 (4096 * i))).readDrw.rdata =
          targetWord base (g.setTar (base + BitVec.ofNat 32 (4096 * i))).readDrw.mem
            (1024 * i + 1 - 1) := by
        rw [readDrw_mem, targetWord, blockAddr, show (1024 * i + 1 - 1) / 1024 = i by omega,
          show (1024 * i + 1 - 1) % 1024 = 0 by omega]
        rfl
      obtain ⟨g₁, h₁, hin₁, hmem₁, hrd₁, hbus₁⟩ := memReadWords_takes base size check print i left
        (1024 * i + 1) acc _ hleft (by omega)
        (by rw [show 1024 * i + 1 - 1024 * i = 0 + 1 by omega]; exact hchunk) hfirst
      rw [readDrw_mem] at h₁ hmem₁ hrd₁
      obtain ⟨g', h', hmem', hincr', hbus'⟩ := ih (i + 1)
        ((takeBlock base g.mem check (1024 * i + 1 - 1) left acc).take check (1024 * i + 1 + left - 1)
          g₁.rdata) g₁.readDrw (by omega) hin₁.programmed.readDrw hin₁.incr
      have hmem : g₁.readDrw.mem = g.mem := (readDrw_mem g₁).trans hmem₁
      have hlastWord : g₁.rdata = targetWord base g.mem (1024 * i + 1 + left - 1) := hrd₁
      rw [hmem] at h' hmem'
      rw [← next_chunk] at h'
      refine ⟨g', ?_, hmem', hincr', ?_⟩
      · rw [memReadChunks, if_pos (by omega), takeBlock_chunk base size check hleft, ← hlastWord]
        exact Yields.bind (hg.writeTar_yields _ false)
          (Yields.bind ((hg.setTar _).readDrw_yields false) (Yields.bind h₁
            (Yields.bind hin₁.programmed.rdBuff_yields
              (Yields.bind (takeWord_yields _ _ _ _ _ _) h'))))
      · have hlast : g₁.readDrw.bus = g₁.bus ++ chunkReads base i (1 + left) 1 := by
          rw [show 1 + left = 1024 * i + 1 + left - 1024 * i by omega]
          show g₁.bus ++ [.read (wordAlign g₁.tar)] = _
          rw [hin₁.tar]
          rfl
        have hbus₀ : (g.setTar (base + BitVec.ofNat 32 (4096 * i))).readDrw.bus =
            g.bus ++ chunkReads base i 0 1 := rfl
        rw [hbus', hlast, hbus₁, hbus₀, blockReads_chunk base hmore,
          show min (1024 * (i + 1)) size - 1024 * i + 1 = 1 + left + 1 by omega, chunkReads_split,
          show 1024 * i + 1 - 1024 * i = 1 by omega]
        simp only [List.append_assoc]
    · exact memReadChunks_end base size check print hmore acc hincr

/-- **`memRead`** takes the words of the block, one after the other, and leaves the memory as it was. -/
theorem memRead_takes (readdata : List Word) {g : Regs μ} (hincr : g.incr = pageIncr) :
    ∃ g', Yields Rest (memRead base readdata size check print) g
        (takeBlock base g.mem check 0 size ⟨readdata, 0⟩) g' ∧
      g'.mem = g.mem ∧ g'.incr = pageIncr ∧ g'.bus = g.bus ++ blockReads base size 0 := by
  obtain ⟨g', h, hmem, hincr', hbus⟩ := memReadChunks_takes base size check print size 0 ⟨readdata, 0⟩
    g.program (by omega) (program_programmed g) hincr
  rw [show base + BitVec.ofNat 32 (4096 * 0) = base from BitVec.add_zero base] at h
  exact ⟨g', opening_yields h, hmem, hincr', hbus⟩

end Read

end Expedition
