import Expedition.Dap.Blocks
import Expedition.Load.Program

/-!
# The load loop, scan by scan

The two nested loops of the load do one thing after the other for every scan of the file: store what
the scan found, or what `d` happens to be.  They end when the scans see the end of the file.

* `loadChunks_stores` — if they do, the words found are stored one after the other, page after page.
* `loadChunks_fails` — if they do not, the loop does not end, however long it runs.
-/

namespace Expedition

open Exec Stdio

/-! ## Where the words go -/

/-- The address of the `k`-th word of the image. -/
def imemAddr (k : Nat) : Word := BitVec.ofNat 32 (0x10000000 + 4 * k)

theorem wordAlign_imemAddr (k : Nat) : wordAlign (imemAddr k) = imemAddr k := by
  rw [wordAlign_eq]
  apply BitVec.eq_of_toNat_eq
  simp only [imemAddr, BitVec.toNat_ofNat]
  omega

theorem imemAddr_add_page (k : Nat) : imemAddr k + 1024 * 4 = imemAddr (k + 1024) := by
  apply BitVec.eq_of_toNat_eq
  have hpage : ((1024 : Word) * 4).toNat = 4096 := by decide
  simp only [imemAddr, BitVec.toNat_add, BitVec.toNat_ofNat, hpage]
  omega

/-- The words `l` with the addresses of the image from index `k` on. -/
def placed : Nat → List Word → List (Word × Word)
  | _, [] => []
  | k, v :: l => (imemAddr k, v) :: placed (k + 1) l

/-- TAR at the `k`-th word if it moves by `incr`: the loop sets it at the start of every page. -/
def loadTar (incr : Word → Word) (k : Nat) : Word := incr^[k % 1024] (imemAddr (k / 1024 * 1024))

theorem loadTar_succ (incr : Word → Word) {k : Nat} (h : k % 1024 ≠ 1023) :
    loadTar incr (k + 1) = incr (loadTar incr k) := by
  rw [loadTar, show (k + 1) % 1024 = k % 1024 + 1 by omega, show (k + 1) / 1024 = k / 1024 by omega]
  exact Function.iterate_succ_apply' ..

theorem loadTar_page (incr : Word → Word) {k : Nat} (h : k % 1024 = 0) :
    loadTar incr k = imemAddr k := by
  rw [loadTar, h, show k / 1024 * 1024 = k by omega]
  rfl

/-- A port that increments inside the page reaches every word of the page. -/
theorem loadTar_pageIncr (k : Nat) : loadTar pageIncr k = imemAddr k := by
  apply BitVec.eq_of_toNat_eq
  rw [loadTar, iterate_pageIncr_toNat]
  simp only [imemAddr, BitVec.toNat_ofNat]
  omega

/-- The stores of the words `l`, the first of them at index `k`. -/
def loadStores (incr : Word → Word) : Nat → List Word → List (Word × Word)
  | _, [] => []
  | k, v :: l => (wordAlign (loadTar incr k), v) :: loadStores incr (k + 1) l

theorem loadStores_append (incr : Word → Word) (k : Nat) (l l' : List Word) :
    loadStores incr k (l ++ l') = loadStores incr k l ++ loadStores incr (k + l.length) l' := by
  induction l generalizing k with
  | nil => rfl
  | cons v l ih =>
    rw [List.cons_append, loadStores, ih, loadStores, List.length_cons, List.cons_append,
      show k + 1 + l.length = k + (l.length + 1) by omega]

theorem length_loadStores (incr : Word → Word) (k : Nat) (l : List Word) :
    (loadStores incr k l).length = l.length := by
  induction l generalizing k with
  | nil => rfl
  | cons v l ih => exact congrArg Nat.succ (ih (k + 1))

theorem loadStores_pageIncr (k : Nat) (l : List Word) : loadStores pageIncr k l = placed k l := by
  induction l generalizing k with
  | nil => rfl
  | cons v l ih => rw [loadStores, placed, ih, loadTar_pageIncr, wordAlign_imemAddr]

/-! ## What is stored -/

/-- The words of the scans from the `k`-th on: what was found, or what `d` happens to be. -/
def filled (junk : Nat → Word) : Nat → List (Option Word) → List Word
  | _, [] => []
  | k, d :: ds => d.getD (junk k) :: filled junk (k + 1) ds

theorem length_filled (junk : Nat → Word) (k : Nat) (ds : List (Option Word)) :
    (filled junk k ds).length = ds.length := by
  induction ds generalizing k with
  | nil => rfl
  | cons d ds ih => exact congrArg Nat.succ (ih (k + 1))

theorem filled_append (junk : Nat → Word) (k : Nat) (ds ds' : List (Option Word)) :
    filled junk k (ds ++ ds') = filled junk k ds ++ filled junk (k + ds.length) ds' := by
  induction ds generalizing k with
  | nil => rfl
  | cons d ds ih =>
    rw [List.cons_append, filled, ih, filled, List.length_cons, List.cons_append,
      show k + 1 + ds.length = k + (ds.length + 1) by omega]

theorem filled_words (junk : Nat → Word) (k : Nat) (ws : List Word) :
    filled junk k (ws.map some) = ws := by
  induction ws generalizing k with
  | nil => rfl
  | cons w ws ih => rw [List.map_cons, filled, ih, Option.getD_some]

section Loop

variable {μ : Type} [TargetBus μ]

/-- From `g` to `g'` the stores `l` were made, on the memory and in the log of the bus. -/
structure Wrote (l : List (Word × Word)) (g g' : Regs μ) : Prop where
  mem : g'.mem = storeAll g.mem l
  bus : g'.bus = g.bus ++ l.map fun p => .write p.1 p.2

theorem Wrote.nil (g : Regs μ) : Wrote [] g g := ⟨rfl, (List.append_nil _).symm⟩

theorem Wrote.append {l l' : List (Word × Word)} {g₁ g₂ g₃ : Regs μ} (h : Wrote l g₁ g₂)
    (h' : Wrote l' g₂ g₃) : Wrote (l ++ l') g₁ g₃ := by
  refine ⟨?_, ?_⟩
  · rw [h'.mem, h.mem, storeAll, storeAll, storeAll, List.foldl_append]
  · rw [h'.bus, h.bus, List.map_append, List.append_assoc]

/-- The port during the load. -/
structure Loading (incr : Word → Word) (g : Regs μ) : Prop extends Programmed g where
  incr_eq : g.incr = incr

variable (junk : Nat → Word) {incr : Word → Word}

theorem loadWords_eof {σ : Type} [JtagDevice σ] (left k : Nat) {fp : Stream} (h : feof fp = true) :
    loadWords junk left k fp = (pure (k, fp) : Drv σ (Nat × Stream)) := by
  cases left with
  | zero => rfl
  | succ left => rw [loadWords, if_pos h]

/-- The inner loop: `left` scans at most, each of them stored. -/
theorem loadWords_stores (left : Nat) :
    ∀ (k : Nat) (fp : Stream) (g : Regs μ), Loading incr g →
      (0 < left → g.tar = loadTar incr k ∧ k % 1024 + left = 1024) →
      ∃ g', Yields Rest (loadWords junk left k fp) g
          (k + (scanUpTo left fp).1.length, (scanUpTo left fp).2) g' ∧ Loading incr g' ∧
        Wrote (loadStores incr k (filled junk k (scanUpTo left fp).1)) g g' := by
  induction left with
  | zero =>
    intro k fp g hg _
    exact ⟨g, Yields.pure _ g, hg, Wrote.nil g⟩
  | succ left ih =>
    intro k fp g hg hk
    cases heof : feof fp with
    | true =>
      rw [scanUpTo_eof _ heof, loadWords_eof junk _ _ heof]
      exact ⟨g, Yields.pure _ g, hg, Wrote.nil g⟩
    | false =>
      obtain ⟨htar, hk⟩ := hk (Nat.succ_pos _)
      let v := (scanHex fp).1.getD (junk k)
      have hnext : Loading incr (g.writeDrw v) := ⟨hg.toProgrammed.writeDrw v, hg.incr_eq⟩
      have hstore : Wrote [(wordAlign (loadTar incr k), v)] g (g.writeDrw v) := by
        rw [← htar]
        exact ⟨rfl, rfl⟩
      obtain ⟨g', hrun, hload, hwrote⟩ := ih (k + 1) (scanHex fp).2 (g.writeDrw v) hnext
        fun hpos => ⟨by
          rw [loadTar_succ incr (by omega), ← htar, ← hg.incr_eq]
          rfl, by omega⟩
      rw [scanUpTo_succ left heof, loadWords, if_neg (by simp [heof])]
      refine ⟨g', ?_, hload, hstore.append hwrote⟩
      rw [List.length_cons, show k + ((scanUpTo left (scanHex fp).2).1.length + 1) =
        k + 1 + (scanUpTo left (scanHex fp).2).1.length by omega]
      exact Yields.bind (hg.writeDrw_yields v false) hrun

theorem loadChunks_eof {σ : Type} [JtagDevice σ] (fuel : Nat) (addr : Word) (k : Nat) {fp : Stream}
    (h : feof fp = true) :
    loadChunks junk fuel addr k fp = (pure (k, fp) : Drv σ (Nat × Stream)) := by
  cases fuel with
  | zero => rw [loadChunks, if_pos h]
  | succ fuel => rw [loadChunks, if_pos h]

/-- One page: TAR is set and the inner loop runs, before the rest of the outer loop. -/
theorem loadChunks_page {k : Nat} (fp : Stream) {g : Regs μ} (hg : Loading incr g)
    (hk : k % 1024 = 0) :
    ∃ g', Yields Rest (writeAPACC (imemAddr k) AP_TAR false >>= fun _ => loadWords junk 1024 k fp) g
          (k + (scanUpTo 1024 fp).1.length, (scanUpTo 1024 fp).2) g' ∧ Loading incr g' ∧
        Wrote (loadStores incr k (filled junk k (scanUpTo 1024 fp).1)) g g' := by
  have hg₁ : Loading incr (g.setTar (imemAddr k)) := ⟨hg.toProgrammed.setTar _, hg.incr_eq⟩
  obtain ⟨g', hrun, hload, hwrote⟩ := loadWords_stores junk 1024 k fp _ hg₁
    fun _ => ⟨(loadTar_page incr hk).symm, by omega⟩
  exact ⟨g', Yields.bind (hg.writeTar_yields _ false) hrun, hload, hwrote.mem, hwrote.bus⟩

/-- The outer loop is the pages one after the other. -/
theorem loadChunks_succ {σ : Type} [JtagDevice σ] (fuel : Nat) (addr : Word) (k : Nat) {fp : Stream}
    (h : feof fp = false) :
    loadChunks junk (fuel + 1) addr k fp =
      ((writeAPACC addr AP_TAR false >>= fun _ => loadWords junk 1024 k fp) >>= fun r =>
        loadChunks junk fuel (addr + 1024 * 4) r.1 r.2 : Drv σ (Nat × Stream)) := by
  rw [loadChunks, if_neg (by simp [h]), bind_assoc]

/-- **The load loop ends if the scans do**, with every word stored that a scan found. -/
theorem loadChunks_stores (fuel : Nat) :
    ∀ (k : Nat) (fp : Stream) (g : Regs μ), Loading incr g → k % 1024 = 0 →
      feof (scanUpTo (1024 * fuel) fp).2 = true →
      ∃ g', Yields Rest (loadChunks junk fuel (imemAddr k) k fp) g
          (k + (scanUpTo (1024 * fuel) fp).1.length, (scanUpTo (1024 * fuel) fp).2) g' ∧
        Wrote (loadStores incr k (filled junk k (scanUpTo (1024 * fuel) fp).1)) g g' := by
  induction fuel with
  | zero =>
    intro k fp g _ _ heof
    rw [loadChunks_eof junk 0 _ _ (show feof fp = true from heof)]
    exact ⟨g, Yields.pure _ g, Wrote.nil g⟩
  | succ fuel ih =>
    intro k fp g hg hk heof
    cases hfp : feof fp with
    | true =>
      rw [loadChunks_eof junk _ _ _ hfp, scanUpTo_eof _ hfp]
      exact ⟨g, Yields.pure _ g, Wrote.nil g⟩
    | false =>
      obtain ⟨g₁, hrun, hload, hwrote⟩ := loadChunks_page junk fp hg hk
      rw [show 1024 * (fuel + 1) = 1024 + 1024 * fuel by omega, scanUpTo_add] at heof ⊢
      rw [loadChunks_succ junk fuel _ _ hfp]
      rcases length_scanUpTo 1024 fp with hfull | ⟨-, hend⟩
      · -- the page is full and the next one follows
        obtain ⟨g', hrun', hwrote'⟩ := ih (k + 1024) (scanUpTo 1024 fp).2 g₁ hload (by omega) heof
        refine ⟨g', Yields.bind hrun ?_, ?_⟩
        · rw [hfull, imemAddr_add_page, List.length_append, hfull,
            show k + (1024 + (scanUpTo (1024 * fuel) (scanUpTo 1024 fp).2).1.length) =
              k + 1024 + (scanUpTo (1024 * fuel) (scanUpTo 1024 fp).2).1.length by omega]
          exact hrun'
        · rw [filled_append, loadStores_append, length_filled, hfull]
          exact hwrote.append hwrote'
      · -- the end was seen inside the page
        refine ⟨g₁, Yields.bind hrun ?_, ?_⟩
        · rw [loadChunks_eof junk _ _ _ hend, scanUpTo_eof _ hend, List.append_nil]
          exact Yields.pure _ g₁
        · rw [scanUpTo_eof _ hend, List.append_nil]
          exact hwrote

/-- **Otherwise it does not end**, however many pages it is given. -/
theorem loadChunks_fails (fuel : Nat) :
    ∀ (k : Nat) (fp : Stream) (g : Regs μ), Loading incr g → k % 1024 = 0 →
      feof (scanUpTo (1024 * fuel) fp).2 = false →
      Fails Rest (loadChunks junk fuel (imemAddr k) k fp) g .looping := by
  induction fuel with
  | zero =>
    intro k fp g _ _ heof
    have hfp : feof fp = false := heof
    rw [loadChunks, if_neg (by simp [hfp])]
    exact Fails.fail _ g
  | succ fuel ih =>
    intro k fp g hg hk heof
    rw [show 1024 * (fuel + 1) = 1024 + 1024 * fuel by omega, scanUpTo_add] at heof
    have hpage : feof (scanUpTo 1024 fp).2 = false := by
      cases h : feof (scanUpTo 1024 fp).2 with
      | false => rfl
      | true =>
        rw [scanUpTo_eof _ h, h] at heof
        cases heof
    have hfp : feof fp = false := by
      cases h : feof fp with
      | false => rfl
      | true =>
        rw [scanUpTo_eof _ h, h] at hpage
        cases hpage
    obtain ⟨g₁, hrun, hload, -⟩ := loadChunks_page junk fp hg hk
    have hfull : (scanUpTo 1024 fp).1.length = 1024 := by
      rcases length_scanUpTo 1024 fp with h | ⟨-, h⟩
      · exact h
      · rw [hpage] at h
        cases h
    rw [loadChunks_succ junk fuel _ _ hfp]
    refine Fails.bind hrun ?_
    rw [hfull, imemAddr_add_page]
    exact ih (k + 1024) _ g₁ hload (by omega) heof

end Loop

/-! ## Files of words -/

/-- What the load stores of a file `text` of words `ws`, the first of them at index `k`: where the
file ends in white space, one more scan finds no word and a stray one is stored. -/
def image (junk : Nat → Word) (k : Nat) (text : List Char) (ws : List Word) : List Word :=
  ws ++ if endsBlank text then [junk (k + ws.length)] else []

theorem filled_image (junk : Nat → Word) (k : Nat) (text : List Char) (ws : List Word) :
    filled junk k (ws.map some ++ if endsBlank text then [none] else []) = image junk k text ws := by
  rw [filled_append, filled_words, List.length_map, image]
  split <;> rfl

/-- The load of a file of words: it ends, with the image stored. -/
theorem loadChunks_image {μ : Type} [TargetBus μ] (junk : Nat → Word) {incr : Word → Word}
    {text : List Char} {ws : List Word} (htext : HexText text ws) (hne : text ≠ []) {g : Regs μ}
    (hg : Loading incr g) {fuel : Nat} (hfuel : text.length < fuel) :
    ∃ g', Yields Rest (loadChunks junk fuel (imemAddr 0) 0 (Stream.ofText text)) g
        ((image junk 0 text ws).length, ⟨[], true⟩) g' ∧
      Wrote (loadStores incr 0 (image junk 0 text ws)) g g' := by
  have hscan := htext.scanUpTo hne (show text.length < 1024 * fuel by omega)
  obtain ⟨g', hrun, hwrote⟩ := loadChunks_stores junk fuel 0 (Stream.ofText text) g hg rfl
    (by rw [hscan]; rfl)
  rw [hscan, filled_image] at hwrote
  rw [hscan, ← length_filled junk 0, filled_image, Nat.zero_add] at hrun
  exact ⟨g', hrun, hwrote⟩

end Expedition
