import Expedition.Dap.Blocks

/-!
# What the block functions read and write

`memRead` and `memWrite` on plain memory behind a port that increments TAR inside its 4 KB page.

* `memRead_reads_block` — from a page boundary on, `memRead` returns the block and counts the words
  that were different.
* `memWrite_agrees_iff` — `memWrite` agrees with `writeMemory` word by word exactly where no chunk of
  the block crosses a page boundary.
* `memWrite_memRead` — what `memWrite` wrote `memRead` reads back, for every word-aligned base: both
  walk the pages the same way round.
* `memRead_overreads` — `memRead` reads more than the block.
-/

namespace Expedition

open Exec

/-! ## Stores on plain memory -/

section Stores

variable {addr val : Nat → Word}

theorem storeAll_other (m : Word → Word) (l : List (Word × Word)) {a : Word} (h : ∀ p ∈ l, p.1 ≠ a) :
    storeAll m l a = m a := by
  induction l generalizing m with
  | nil => rfl
  | cons p l ih =>
    have hrest := ih (TargetBus.store p.1 p.2 m) fun q hq => h q (List.mem_cons_of_mem _ hq)
    have hne : a ≠ p.1 := fun e => h p List.mem_cons_self e.symm
    exact hrest.trans (Function.update_of_ne hne _ _)

/-- The last store to a word is the one that counts. -/
theorem storeAll_last (m : Word → Word) (l : List (Word × Word)) (a v : Word) :
    storeAll m (l ++ [(a, v)]) a = v := by
  rw [storeAll, List.foldl_append]
  exact Function.update_self ..

/-- Stores to different words are all there. -/
theorem storeAll_mem {n : Nat} (m : Word → Word) (hinj : ∀ j < n, ∀ k < n, addr j = addr k → j = k)
    {j : Nat} (hj : j < n) :
    storeAll m ((List.range' 0 n).map fun k => (addr k, val k)) (addr j) = val j := by
  induction n with
  | zero => omega
  | succ n ih =>
    rw [List.range'_1_concat, List.map_append, List.map_cons, List.map_nil, Nat.zero_add]
    by_cases hjn : j = n
    · subst hjn
      exact storeAll_last ..
    · have hne : addr j ≠ addr n := fun e => hjn (hinj j hj n (by omega) e)
      have hbefore := ih (fun j hj k hk => hinj j (by omega) k (by omega)) (by omega)
      rw [storeAll, List.foldl_append]
      exact (Function.update_of_ne hne _ _).trans hbefore

/-- Where zeros are stored, a word is as it was or zero. -/
theorem storeAll_zero (m : Word → Word) (l : List (Word × Word)) (hl : ∀ p ∈ l, p.2 = 0) (a : Word)
    (ha : ∃ p ∈ l, p.1 = a) : storeAll m l a = 0 := by
  induction l generalizing m with
  | nil =>
    obtain ⟨p, hp, -⟩ := ha
    cases hp
  | cons p l ih =>
    by_cases hlater : ∃ q ∈ l, q.1 = a
    · exact ih (TargetBus.store p.1 p.2 m) (fun q hq => hl q (List.mem_cons_of_mem _ hq)) hlater
    · obtain ⟨q, hq, hqa⟩ := ha
      have hpa : p.1 = a := by
        rcases List.mem_cons.mp hq with rfl | hq
        · exact hqa
        · exact absurd ⟨q, hq, hqa⟩ hlater
      have hrest := storeAll_other (TargetBus.store p.1 p.2 m) l (a := a)
        fun q hq e => hlater ⟨q, hq, e⟩
      refine hrest.trans ?_
      rw [← hpa, hl p List.mem_cons_self]
      exact Function.update_self ..

end Stores

/-! ## Reading a block -/

/-- The array and the count after the first `n` words. -/
theorem takeBlock_eq (base : Word) (m : Word → Word) (check : Bool) (readdata : List Word) (n : Nat)
    (hn : n ≤ readdata.length) :
    takeBlock base m check 0 n ⟨readdata, 0⟩ =
      ⟨(List.range n).map (targetWord base m) ++ readdata.drop n,
        BitVec.ofNat 32 (if check then
          (List.range n).countP fun j => readdata.getD j 0 ≠ targetWord base m j else 0)⟩ := by
  induction n with
  | zero => cases check <;> rfl
  | succ n ih =>
    have hlen : ((List.range n).map (targetWord base m)).length = n := by simp
    have hdrop : readdata.drop n = readdata.getD n 0 :: readdata.drop (n + 1) := by
      rw [List.drop_eq_getElem_cons (by omega)]
      simp [List.getD_eq_getElem?_getD, List.getElem?_eq_getElem (show n < readdata.length by omega)]
    have hold : ((List.range n).map (targetWord base m) ++ readdata.drop n).getD n 0 =
        readdata.getD n 0 := by
      rw [hdrop, List.getD_eq_getElem?_getD, List.getElem?_append_right (by omega), hlen]
      simp
    have hstep : takeBlock base m check 0 (n + 1) ⟨readdata, 0⟩ =
        (takeBlock base m check 0 n ⟨readdata, 0⟩).take check n (targetWord base m n) := by
      rw [takeBlock, List.range'_1_concat, List.foldl_append, Nat.zero_add]
      rfl
    rw [hstep, ih (by omega)]
    unfold ReadAcc.take ReadAcc.differs
    simp only [hold, ReadAcc.mk.injEq]
    constructor
    · rw [hdrop, List.set_append_right _ _ (by omega), hlen, Nat.sub_self, List.set_cons_zero,
        List.range_succ, List.map_append, List.append_assoc]
      rfl
    · rw [List.range_succ, List.countP_append]
      cases check with
      | false => rfl
      | true =>
        by_cases hdiff : readdata.getD n 0 = targetWord base m n
        · simp only [hdiff, ne_eq, not_true_eq_false, decide_false, Bool.and_false, Bool.false_eq_true,
            if_true, if_false, List.countP_cons, List.countP_nil, Nat.add_zero]
        · simp only [hdiff, ne_eq, not_false_eq_true, decide_true, Bool.and_true, if_true,
            List.countP_cons, List.countP_nil, Nat.zero_add, BitVec.ofNat_add]
          rfl

/-- A port that increments TAR inside its page, with one WAIT answer to come. -/
def pagedPort : Port (Word → Word) :=
  { irShift := [], drShift := [], scanWait := false
    regs :=
      { ir := 0xE, select := 0, ctrlstat := 0, csw := 0, tar := 0, rdata := 0, mem := id
        waits := [false, true], incr := pageIncr, bus := [] } }

def pagedWorld : World (Port (Word → Word)) :=
  World.powerOn false false true .runTestIdle pagedPort 'n' 4

theorem pagedWorld_rest : Rest pagedWorld pagedPort.regs := ⟨rfl, rfl, rfl, rfl, rfl, by decide⟩

section Read

variable {w : World (Port (Word → Word))} {g : Regs (Word → Word)}

/-- **`memRead` reads the block.**  From a page boundary on, for every size, array and memory and every
pattern of WAIT answers: it returns with the target's words in the first `size` places of the array
and every other place as it was, the memory unchanged, and the number of words that were different
if it was asked to check. -/
theorem memRead_reads_block (hw : Rest w g) (hincr : g.incr = pageIncr) (base : Word) (size : Nat)
    (hbase : base.toNat % 4096 = 0) (hfit : base.toNat + 4 * size ≤ 2 ^ 32) (readdata : List Word)
    (hlen : size ≤ readdata.length) (check print : Bool) :
    ∃ acc u g', memRead base readdata size check print w = (.ok acc, u) ∧ Rest u g' ∧
      g'.mem = g.mem ∧ (∀ j < size, acc.readdata[j]? = some (g.mem (wordAddr base j))) ∧
      (∀ j, size ≤ j → acc.readdata[j]? = readdata[j]?) ∧
      acc.mismatch.toNat = if check then
        (List.range size).countP fun j => readdata.getD j 0 ≠ g.mem (wordAddr base j) else 0 := by
  obtain ⟨g', hyields, hmem, -, -⟩ := memRead_takes base size check print readdata hincr
  obtain ⟨u, hu, hrest⟩ := hyields w hw
  have hword : ∀ j, targetWord base g.mem j = g.mem (wordAddr base j) := by
    intro j
    show g.mem (wordAlign (blockAddr base j)) = _
    rw [blockAddr, wordAlign_tarAt (by omega), ← blockAddr, blockAddr_eq (.inl hbase)]
  have hacc := takeBlock_eq base g.mem check readdata size hlen
  simp only [hword, show targetWord base g.mem = fun j => g.mem (wordAddr base j) from funext hword]
    at hacc
  refine ⟨_, u, g', hu, hrest, hmem, fun j hj => ?_, fun j hj => ?_, ?_⟩
  · rw [hacc, List.getElem?_append_left (by simpa using hj)]
    simp [hj]
  · rw [hacc, List.getElem?_append_right (by simpa using hj)]
    simp [Nat.add_sub_cancel' hj]
  · rw [hacc]
    have hcount : (List.range size).countP (fun j => readdata.getD j 0 ≠ g.mem (wordAddr base j)) ≤ size := by
      simpa using List.countP_le_length
        (l := List.range size) (p := fun j => readdata.getD j 0 ≠ g.mem (wordAddr base j))
    simp only [BitVec.toNat_ofNat]
    split <;> omega

/-- A block of two words over an array of three, the first of which is already right. -/
theorem memRead_reads_two :
    ∃ acc u g', memRead 0x20000000 [0x20000000, 7, 9] (2 : Nat) true false pagedWorld = (.ok acc, u) ∧
      Rest u g' ∧ acc.mismatch.toNat = 1 ∧ acc.readdata[2]? = some 9 := by
  obtain ⟨acc, u, g', hrun, hrest, -, -, hother, hcount⟩ := memRead_reads_block pagedWorld_rest rfl
    0x20000000 2 (by decide) (by decide) [0x20000000, 7, 9] (by decide) true false
  exact ⟨acc, u, g', hrun, hrest, hcount.trans (by decide), hother 2 (by decide)⟩

/-! ## The reads on the bus -/

theorem length_blockReads (base : Word) (size chunks : Nat) :
    ∀ i, (size + 1023) / 1024 - i = chunks →
      (blockReads base size i).length = size - 1024 * i + chunks := by
  induction chunks with
  | zero =>
    intro i hi
    rw [blockReads_end base (by omega)]
    simp only [List.length_nil]
    omega
  | succ chunks ih =>
    intro i hi
    rw [blockReads_chunk base (by omega), List.length_append, ih (i + 1) (by omega), chunkReads,
      List.length_map, List.length_range']
    omega

/-- **`memRead` reads more than the block.**  It makes one bus read more in every chunk: the fetch of
the last word leaves IR at APACC, where the address of RDBUFF is that of DRW.  So the reads are never
one of each word of the block and none else. -/
theorem memRead_overreads (hw : Rest w g) (hincr : g.incr = pageIncr) (base : Word) (size : Nat)
    (hsize : 1 ≤ size) (readdata : List Word) (check print : Bool) :
    ∃ acc u g' reads, memRead base readdata size check print w = (.ok acc, u) ∧ Rest u g' ∧
      g'.bus = g.bus ++ reads ∧ reads.length = size + (size + 1023) / 1024 ∧
      ¬ reads.Perm ((List.range size).map fun j => .read (wordAddr base j)) := by
  obtain ⟨g', hyields, -, -, hbus⟩ := memRead_takes base size check print readdata hincr
  obtain ⟨u, hu, hrest⟩ := hyields w hw
  have hlength := length_blockReads base size ((size + 1023) / 1024) 0 (by omega)
  refine ⟨_, u, g', blockReads base size 0, hu, hrest, hbus, by omega, fun hperm => ?_⟩
  have := hperm.length_eq
  rw [hlength, List.length_map, List.length_range] at this
  omega

/-- A block of one word: the word after it is read too. -/
theorem memRead_overreads_one :
    ∃ acc u g' reads, memRead 0x20000000 [0] (1 : Nat) false false pagedWorld = (.ok acc, u) ∧
      Rest u g' ∧ g'.bus = reads ∧ reads.length = 2 := by
  obtain ⟨acc, u, g', reads, hrun, hrest, hbus, hlength, -⟩ := memRead_overreads pagedWorld_rest rfl
    0x20000000 1 (by decide) [0] false false
  exact ⟨acc, u, g', reads, hrun, hrest, hbus, hlength⟩

/-- Asked for the word at 0x20000000, `memRead` also reads the one at 0x20000004. -/
theorem memRead_one_word_reads :
    ∃ u g', memRead 0x20000000 [0] (1 : Nat) false false pagedWorld = (.ok ⟨[0x20000000], 0⟩, u) ∧
      Rest u g' ∧ g'.bus = [.read 0x20000000, .read 0x20000004] ∧
      ¬ g'.bus.Perm ((List.range 1).map fun j => .read (wordAddr 0x20000000 j)) := by
  obtain ⟨g', hyields, -, -, hbus⟩ := memRead_takes 0x20000000 1 false false [0]
    (show pagedPort.regs.incr = pageIncr from rfl)
  obtain ⟨u, hu, hrest⟩ := hyields pagedWorld pagedWorld_rest
  have hreads : g'.bus = [.read 0x20000000, .read 0x20000004] := hbus.trans (by decide)
  refine ⟨u, g', hu.trans ?_, hrest, hreads, fun hperm => ?_⟩
  · rw [show takeBlock 0x20000000 pagedPort.regs.mem false 0 1 ⟨[0], 0⟩ = ⟨[0x20000000], 0⟩ by rfl]
  · rw [hreads] at hperm
    exact absurd hperm.length_eq (by decide)

end Read

/-! ## Writing a block -/

section Write

variable {w : World (Port (Word → Word))} {g : Regs (Word → Word)}

/-- **What is written is read back**, for every word-aligned base: `memRead` over the array that was
written finds no mismatch and leaves it as it is. -/
theorem memWrite_memRead (hw : Rest w g) (hincr : g.incr = pageIncr) (base : Word) (d : List Word)
    (hbase : base.toNat % 4 = 0) (hfit : base.toNat + 4 * d.length ≤ 2 ^ 32) :
    ∃ u v g', memWrite base d d.length false w = (.ok (), u) ∧
      memRead base d d.length true false u = (.ok ⟨d, 0⟩, v) ∧ Rest v g' := by
  obtain ⟨g₁, hwrite, hincr₁, hmem₁⟩ := memWrite_stores base d d.length false hincr
  obtain ⟨u, hu, hrest₁⟩ := hwrite w hw
  obtain ⟨g', hread, -, -, -⟩ := memRead_takes base d.length true false d hincr₁
  obtain ⟨v, hv, hrest⟩ := hread u hrest₁
  have hstored : ∀ j < d.length, targetWord base g₁.mem j = d.getD j 0 := by
    intro j hj
    have hinj : ∀ j < d.length, ∀ k < d.length,
        wordAlign (blockAddr base j) = wordAlign (blockAddr base k) → j = k := by
      intro j hj k hk h
      rw [blockAddr, blockAddr, wordAlign_tarAt hbase, wordAlign_tarAt hbase] at h
      exact blockAddr_inj hbase hfit hj hk h
    show g₁.mem (wordAlign (blockAddr base j)) = _
    rw [hmem₁]
    exact storeAll_mem g.mem hinj hj
  have hword : (List.range d.length).map (targetWord base g₁.mem) = d := by
    apply List.ext_getElem
    · simp
    · intro j hj hj'
      rw [List.getElem_map, List.getElem_range, hstored j hj']
      simp [List.getD_eq_getElem?_getD, List.getElem?_eq_getElem hj']
  have hsame : (List.range d.length).countP (fun j => d.getD j 0 ≠ targetWord base g₁.mem j) = 0 := by
    rw [List.countP_eq_zero]
    intro j hj
    simp [hstored j (by simpa using hj)]
  have hacc := takeBlock_eq base g₁.mem true d d.length le_rfl
  rw [hword, hsame, List.drop_length, List.append_nil] at hacc
  rw [hacc] at hv
  exact ⟨u, v, g', hu, hv, hrest⟩

/-- Three words from the last but one of a page on. -/
theorem memWrite_memRead_three :
    ∃ u v g', memWrite 0x20000FF8 [1, 2, 3] (3 : Nat) false pagedWorld = (.ok (), u) ∧
      memRead 0x20000FF8 [1, 2, 3] (3 : Nat) true false u = (.ok ⟨[1, 2, 3], 0⟩, v) ∧ Rest v g' :=
  memWrite_memRead pagedWorld_rest rfl 0x20000FF8 [1, 2, 3] (by decide) (by decide)

/-! ## Word by word -/

/-- `writeMemory(base + 4j, d[j])` for the `n` indices from `j` on, with zeros for the words if `zero`
is set. -/
def writeEach {σ : Type} [JtagDevice σ] (base : Word) (d : List Word) (zero : Bool) : Nat → Nat → Drv σ Unit
  | _, 0 => pure ()
  | j, n + 1 => do
    writeMemory (wordAddr base j) (blockWord d zero j)
    writeEach base d zero (j + 1) n

/-- The stores of the word path. -/
def wordStores (base : Word) (val : Nat → Word) (j n : Nat) : List (Word × Word) :=
  (List.range' j n).map fun k => (wordAlign (wordAddr base k), val k)

theorem writeEach_stores (base : Word) (d : List Word) (zero : Bool) (n : Nat) :
    ∀ (j : Nat) (g : Regs (Word → Word)),
      ∃ g', Yields Rest (writeEach base d zero j n) g () g' ∧
        g'.mem = storeAll g.mem (wordStores base (blockWord d zero) j n) := by
  induction n with
  | zero => intro j g; exact ⟨g, Yields.pure _ g, rfl⟩
  | succ n ih =>
    intro j g
    obtain ⟨g', hg', hmem⟩ := ih (j + 1)
      ((g.program.setTar (wordAddr base j)).writeDrw (blockWord d zero j))
    refine ⟨g', Yields.bind (writeMemory_yields _ _ g) hg', ?_⟩
    rw [hmem, wordStores, wordStores, List.range'_succ]
    rfl

/-- For every array of `size` words, every memory and every pattern of WAIT answers, `memWrite` and the
calls of `writeMemory` return and leave the same memory. -/
def BlockAgrees (zero : Bool) (base : Word) (size : Nat) : Prop :=
  ∀ (d : List Word) (w : World (Port (Word → Word))) (g : Regs (Word → Word)), d.length = size →
    Rest w g → g.incr = pageIncr →
    ∃ u v g₁ g₂, memWrite base d size zero w = (.ok (), u) ∧ Rest u g₁ ∧
      writeEach base d zero 0 size w = (.ok (), v) ∧ Rest v g₂ ∧ g₁.mem = g₂.mem

/-- No chunk of the block crosses a page boundary. -/
def KeepsToPages (base : Word) (size : Nat) : Prop :=
  base.toNat % 4096 = 0 ∨ base.toNat % 4096 + 4 * size ≤ 4096

theorem KeepsToPages.agrees {base : Word} {size : Nat} (h : KeepsToPages base size) (zero : Bool) :
    BlockAgrees zero base size := by
  intro d w g _ hw hincr
  obtain ⟨g₁, hblock, -, hmem₁⟩ := memWrite_stores base d size zero hincr
  obtain ⟨g₂, hwords, hmem₂⟩ := writeEach_stores base d zero size 0 g
  obtain ⟨u, hu, hrest₁⟩ := hblock w hw
  obtain ⟨v, hv, hrest₂⟩ := hwords w hw
  refine ⟨u, v, g₁, g₂, hu, hrest₁, hv, hrest₂, ?_⟩
  have hstores : blockStores base (blockWord d zero) 0 size = wordStores base (blockWord d zero) 0 size := by
    refine List.map_congr_left fun j hj => ?_
    have hlt : j < size := by simpa using hj
    rw [blockAddr_eq]
    unfold KeepsToPages at h
    omega
  rw [hmem₁, hmem₂, hstores]

/-- The first word after the page boundary goes to the start of the page instead. -/
theorem blockAddr_wraps {base : Word} (h4 : base.toNat % 4 = 0) (hoff : base.toNat % 4096 ≠ 0) :
    blockAddr base ((4096 - base.toNat % 4096) / 4) = BitVec.ofNat 32 (base.toNat / 4096 * 4096) := by
  apply BitVec.eq_of_toNat_eq
  rw [blockAddr_toNat, BitVec.toNat_ofNat]
  have := base.isLt
  omega

theorem not_blockAgrees {base : Word} {size : Nat} (h4 : base.toNat % 4 = 0)
    (hfit : base.toNat + 4 * size ≤ 2 ^ 32) (h : ¬ KeepsToPages base size) (zero : Bool) :
    ¬ BlockAgrees zero base size := by
  intro hagree
  have hoff : base.toNat % 4096 ≠ 0 := fun e => h (.inl e)
  have hpast : 4096 < base.toNat % 4096 + 4 * size := by
    unfold KeepsToPages at h
    omega
  -- zeros over a memory of ones: the block path clears the start of the page, the word path does not
  let g : Regs (Word → Word) := { pagedPort.regs with mem := fun _ => 1 }
  let w : World (Port (Word → Word)) := { pagedWorld with dev := { pagedPort with regs := g } }
  have hw : Rest w g := ⟨rfl, rfl, rfl, rfl, rfl, by decide⟩
  obtain ⟨u, v, g₁, g₂, hu, hrest₁, hv, hrest₂, hmem⟩ :=
    hagree (List.replicate size 0) w g List.length_replicate hw rfl
  obtain ⟨g₁', hblock, -, hmem₁⟩ := memWrite_stores base (List.replicate size 0) size zero
    (show g.incr = pageIncr from rfl)
  obtain ⟨g₂', hwords, hmem₂⟩ := writeEach_stores base (List.replicate size 0) zero size 0 g
  obtain ⟨u', hu', hrest₁'⟩ := hblock w hw
  obtain ⟨v', hv', hrest₂'⟩ := hwords w hw
  rw [hu] at hu'
  rw [hv] at hv'
  obtain rfl : u = u' := congrArg Prod.snd hu'
  obtain rfl : v = v' := congrArg Prod.snd hv'
  obtain rfl : g₁ = g₁' := hrest₁.regs.symm.trans hrest₁'.regs
  obtain rfl : g₂ = g₂' := hrest₂.regs.symm.trans hrest₂'.regs
  have hzero : ∀ j, blockWord (List.replicate size 0) zero j = 0 := by
    intro j
    unfold blockWord
    split
    · rfl
    · rw [List.getD_eq_getElem?_getD, List.getElem?_replicate]
      split <;> rfl
  have hpage : wordAlign (BitVec.ofNat 32 (base.toNat / 4096 * 4096)) =
      BitVec.ofNat 32 (base.toNat / 4096 * 4096) := by
    apply wordAlign_of_aligned
    rw [BitVec.toNat_ofNat]
    omega
  have hcleared : g₁.mem (BitVec.ofNat 32 (base.toNat / 4096 * 4096)) = 0 := by
    rw [hmem₁]
    refine storeAll_zero _ _ (fun p hp => ?_) _
      ⟨_, List.mem_map.mpr ⟨(4096 - base.toNat % 4096) / 4, ?_, rfl⟩, ?_⟩
    · obtain ⟨j, -, rfl⟩ := List.mem_map.mp hp
      exact hzero j
    · rw [List.mem_range'_1]
      omega
    · rw [blockAddr_wraps h4 hoff, hpage]
  have hkept : g₂.mem (BitVec.ofNat 32 (base.toNat / 4096 * 4096)) = 1 := by
    rw [hmem₂]
    refine storeAll_other (fun _ => 1) _ fun p hp => ?_
    obtain ⟨j, hj, rfl⟩ := List.mem_map.mp hp
    rw [List.mem_range'_1] at hj
    intro e
    have e' := congrArg BitVec.toNat e
    have := base.isLt
    rw [wordAlign_of_aligned (by rw [wordAddr, BitVec.toNat_add, BitVec.toNat_ofNat]; omega), wordAddr,
      BitVec.toNat_add, BitVec.toNat_ofNat, BitVec.toNat_ofNat] at e'
    omega
  rw [hmem, hkept] at hcleared
  exact absurd hcleared (by decide)

/-- **When the two paths agree.**  For a word-aligned base and a size that fits, with `zero` set or not:
exactly when no chunk of the block crosses a page boundary. -/
theorem memWrite_agrees_iff (zero : Bool) (base : Word) (size : Nat) (h4 : base.toNat % 4 = 0)
    (hfit : base.toNat + 4 * size ≤ 2 ^ 32) : BlockAgrees zero base size ↔ KeepsToPages base size := by
  constructor
  · intro hagree
    by_contra h
    exact not_blockAgrees h4 hfit h zero hagree
  · intro h
    exact h.agrees zero

/-- A page and a word from a page boundary on. -/
theorem memWrite_agrees_page : BlockAgrees false 0x20000000 1025 ↔ KeepsToPages 0x20000000 1025 :=
  memWrite_agrees_iff false 0x20000000 1025 (by decide) (by decide)

/-- Two words, the second past the end of a page: it lands at the start of the page. -/
theorem memWrite_wraps : ¬ BlockAgrees false 0x20000FFC 2 ∧
    ∃ u g', memWrite 0x20000FFC [5, 6] (2 : Nat) false pagedWorld = (.ok (), u) ∧ Rest u g' ∧
      g'.mem 0x20000000 = 6 ∧ g'.mem 0x20001000 = 0x20001000 := by
  refine ⟨not_blockAgrees (by decide) (by decide) (by unfold KeepsToPages; decide) false, ?_⟩
  obtain ⟨g', hblock, -, hmem⟩ := memWrite_stores 0x20000FFC [5, 6] 2 false
    (show pagedPort.regs.incr = pageIncr from rfl)
  obtain ⟨u, hu, hrest⟩ := hblock pagedWorld pagedWorld_rest
  refine ⟨u, g', hu, hrest, ?_, ?_⟩
  · rw [hmem]
    decide
  · rw [hmem]
    decide

end Write

end Expedition
