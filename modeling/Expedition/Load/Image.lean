import Expedition.Dap.Transfers
import Expedition.Load.Loop

/-!
# The image in the target

What the load loop of `loadProgram` leaves in plain memory, and when it ends.

* `loadImage_places` — every word of the file is at its place, whether or not the file ends in white
  space and however many pages it fills.
* `loadImage_only_iff` — nothing else is written exactly if the file does not end in white space and
  the image fits below the end of the address space.
* `loadImage_ends_iff` — for any content of the file the loop ends exactly if the scans get past every
  character of it.
-/

namespace Expedition

open Exec Stdio

/-- The load loop of `loadProgram` with the programming of the port before it. -/
def loadImage {σ : Type} [JtagDevice σ] (fuel : Nat) (text : List Char) (junk : Nat → Word) :
    Drv σ (Nat × Stream) := do
  writeBanksel 0 true
  writeAPACC CSW_WORD_INC AP_CSW true
  loadChunks junk fuel 0x10000000 0 (Stream.ofText text)

/-- What `loadProgram` does once the load loop has ended. -/
def checkImage {σ : Type} [JtagDevice σ] (fuel : Nat) (junk : Nat → Word) (r : Nat × Stream) :
    Drv σ Word := do
  writeBanksel 0 true
  writeAPACC CSW_WORD_INC AP_CSW true
  let c ← checkChunks junk fuel 0x10000000 ⟨r.1, r.2, 0⟩
  if c.mismatch ≠ 0 then panic "Mem Load Failed"
  else do
    writeMemory set_imem 1
    pure 0

theorem loadFile_eq {σ : Type} [JtagDevice σ] (fuel : Nat) (text : List Char) (junk : Nat → Word) :
    (loadFile fuel text junk : Drv σ Word) =
      loadImage fuel text junk >>= fun r => checkImage fuel junk r := by
  unfold loadImage
  simp only [bind_assoc]
  rfl

/-- The writes among the transfers on the bus; every write of DRW is one. -/
def drwWrites (bus : List BusAccess) : Nat :=
  bus.countP fun | .write _ _ => true | .read _ => false

theorem Wrote.drwWrites {μ : Type} [TargetBus μ] {l : List (Word × Word)} {g g' : Regs μ}
    (h : Wrote l g g') : drwWrites g'.bus = drwWrites g.bus + l.length := by
  rw [h.bus, Expedition.drwWrites, List.countP_append, List.countP_map]
  exact congrArg _ (List.countP_eq_length.mpr fun _ _ => rfl)

section Run

variable {μ : Type} [TargetBus μ] {w : World (Port μ)} {g : Regs μ}

/-- The load of a file of words, run to its end. -/
theorem loadImage_run (hw : Rest w g) {text : List Char} {ws : List Word} (htext : HexText text ws)
    (hws : ws ≠ []) (junk : Nat → Word) {fuel : Nat} (hfuel : text.length < fuel) :
    ∃ r u g', loadImage fuel text junk w = (.ok r, u) ∧ Rest u g' ∧ feof r.2 = true ∧
      Wrote (loadStores g.incr 0 (image junk 0 text ws)) g g' := by
  have hne : text ≠ [] := by
    rintro rfl
    exact hws htext.eq_nil
  obtain ⟨g', hrun, hwrote⟩ := loadChunks_image junk htext hne
    (show Loading g.incr g.program from ⟨program_programmed g, rfl⟩) hfuel
  have himage : Yields Rest (loadImage fuel text junk) g _ g' := opening_yields hrun
  obtain ⟨u, hu, hrest⟩ := himage w hw
  exact ⟨_, u, g', hu, hrest, rfl, hwrote.mem, hwrote.bus⟩

end Run

/-! ## Every word at its place -/

theorem imemAddr_toNat {k : Nat} (h : 0x10000000 + 4 * k < 2 ^ 32) :
    (imemAddr k).toNat = 0x10000000 + 4 * k := by
  rw [imemAddr, BitVec.toNat_ofNat]
  exact Nat.mod_eq_of_lt h

theorem mem_placed {k : Nat} {l : List Word} {p : Word × Word} (h : p ∈ placed k l) :
    ∃ j < l.length, p.1 = imemAddr (k + j) := by
  induction l generalizing k with
  | nil => cases h
  | cons v l ih =>
    rcases List.mem_cons.mp h with rfl | h
    · exact ⟨0, Nat.succ_pos _, rfl⟩
    · obtain ⟨j, hj, hp⟩ := ih h
      refine ⟨j + 1, Nat.succ_lt_succ hj, ?_⟩
      rw [hp, show k + 1 + j = k + (j + 1) by omega]

/-- Words placed in a range that fits are all there. -/
theorem storeAll_placed (m : Word → Word) (k : Nat) (l : List Word)
    (hfit : 0x10000000 + 4 * (k + l.length) ≤ 2 ^ 32) (j : Nat) (hj : j < l.length) :
    storeAll m (placed k l) (imemAddr (k + j)) = l.get ⟨j, hj⟩ := by
  induction l generalizing m k j with
  | nil => exact absurd hj (Nat.not_lt_zero _)
  | cons v l ih =>
    rw [List.length_cons] at hfit hj
    have hstep : storeAll m (placed k (v :: l)) =
        storeAll (TargetBus.store (imemAddr k) v m) (placed (k + 1) l) := rfl
    cases j with
    | zero =>
      rw [hstep, storeAll_other]
      · exact Function.update_self ..
      · intro p hp heq
        obtain ⟨i, hi, hpi⟩ := mem_placed hp
        have haddr := congrArg BitVec.toNat (hpi.symm.trans heq)
        rw [imemAddr_toNat (by omega), imemAddr_toNat (by omega)] at haddr
        omega
    | succ j =>
      rw [hstep, show k + (j + 1) = k + 1 + j by omega]
      exact ih _ (k + 1) (by omega) j (by omega)

section Plain

variable {w : World (Port (Word → Word))} {g : Regs (Word → Word)}

/-- **Every word of the file is at its place when the load loop ends**, for every file of words with or
without white space at its end, every memory, every pattern of WAIT answers and whatever `d` is
where no word is found. -/
theorem loadImage_places (hw : Rest w g) (hincr : g.incr = pageIncr) {text : List Char}
    {ws : List Word} (htext : HexText text ws) (hws : ws ≠ [])
    (hfit : 0x10000000 + 4 * (ws.length + 1) ≤ 2 ^ 32) (junk : Nat → Word) {fuel : Nat}
    (hfuel : text.length < fuel) :
    ∃ r u g', loadImage fuel text junk w = (.ok r, u) ∧ Rest u g' ∧ feof r.2 = true ∧
      ∀ k (hk : k < ws.length), g'.mem (imemAddr k) = ws.get ⟨k, hk⟩ := by
  obtain ⟨r, u, g', hrun, hrest, heof, hwrote⟩ := loadImage_run hw htext hws junk hfuel
  refine ⟨r, u, g', hrun, hrest, heof, fun k hk => ?_⟩
  have hlen : (image junk 0 text ws).length ≤ ws.length + 1 := by
    rw [image, List.length_append]
    split <;> simp
  have hk' : k < (image junk 0 text ws).length := by
    rw [image, List.length_append]
    omega
  have hword : (image junk 0 text ws).get ⟨k, hk'⟩ = ws.get ⟨k, hk⟩ :=
    List.getElem_append_left hk
  rw [hwrote.mem, hincr, loadStores_pageIncr, ← hword, ← storeAll_placed g.mem 0 _ (by omega) k hk',
    Nat.zero_add]

/-- Two words, with a newline after each. -/
def twoLines : List Char := ['1', '\n', '2', '\n']

theorem isWord_digit {c : Char} (h : isxdigit c = true) : IsWord [c] :=
  ⟨List.cons_ne_nil _ _, by simp, by simpa using h⟩

theorem twoLines_text : HexText twoLines [1, 2] :=
  .word (isWord_digit (c := '1') rfl) rfl (.word (isWord_digit (c := '2') rfl) rfl .nil)

theorem loadImage_places_twoLines :
    ∃ r u g', loadImage 5 twoLines (fun _ => 7) pagedWorld = (.ok r, u) ∧ Rest u g' ∧
      feof r.2 = true ∧ g'.mem 0x10000004 = 2 := by
  obtain ⟨r, u, g', hrun, hrest, heof, hmem⟩ := loadImage_places pagedWorld_rest rfl twoLines_text
    (by decide) (by decide) (fun _ => 7) (show twoLines.length < 5 by decide)
  exact ⟨r, u, g', hrun, hrest, heof, hmem 1 (by decide)⟩

end Plain

/-! ## Nothing else is written -/

/-- Over every memory, pattern of WAIT answers and value of `d` where no word is found, the load loop
makes `n` writes of DRW and leaves every word outside the `n` of the image as it was. -/
def LoadsImageOnly (text : List Char) (n : Nat) : Prop :=
  ∀ (w : World (Port (Word → Word))) (g : Regs (Word → Word)) (junk : Nat → Word) (fuel : Nat),
    Rest w g → g.incr = pageIncr → text.length < fuel →
    ∃ r u g', loadImage fuel text junk w = (.ok r, u) ∧ Rest u g' ∧
      drwWrites g'.bus = drwWrites g.bus + n ∧
      ∀ a : Word, ¬ (0x10000000 ≤ a.toNat ∧ a.toNat < 0x10000000 + 4 * n) → g'.mem a = g.mem a

/-- A word that is stored to does not depend on what was there. -/
theorem storeAll_congr (m m' : Word → Word) {l : List (Word × Word)} {a : Word}
    (h : ∃ p ∈ l, p.1 = a) : storeAll m l a = storeAll m' l a := by
  induction l generalizing m m' with
  | nil =>
    obtain ⟨p, hp, -⟩ := h
    cases hp
  | cons p l ih =>
    by_cases hlater : ∃ q ∈ l, q.1 = a
    · exact ih _ _ hlater
    · obtain ⟨q, hq, rfl⟩ := h
      have hqp : q = p := by
        rcases List.mem_cons.mp hq with rfl | hq
        · rfl
        · exact absurd ⟨q, hq, rfl⟩ hlater
      subst hqp
      have hother : ∀ m : Word → Word, storeAll m (q :: l) q.1 = q.2 := by
        intro m
        have hrest := storeAll_other (TargetBus.store q.1 q.2 m) l (a := q.1)
          fun p hp heq => hlater ⟨p, hp, heq⟩
        exact hrest.trans (Function.update_self ..)
      rw [hother m, hother m']

theorem placed_mem {k : Nat} {l : List Word} {j : Nat} (hj : j < l.length) :
    ∃ p ∈ placed k l, p.1 = imemAddr (k + j) := by
  induction l generalizing k j with
  | nil => exact absurd hj (Nat.not_lt_zero _)
  | cons v l ih =>
    cases j with
    | zero => exact ⟨_, List.mem_cons_self, rfl⟩
    | succ j =>
      obtain ⟨p, hp, hpj⟩ := ih (k := k + 1) (Nat.lt_of_succ_lt_succ hj)
      refine ⟨p, List.mem_cons_of_mem _ hp, ?_⟩
      rw [hpj, show k + 1 + j = k + (j + 1) by omega]

/-- The board of `pagedWorld` in front of the given memory. -/
def pagedWith (m : Word → Word) : World (Port (Word → Word)) :=
  { pagedWorld with dev := { pagedPort with regs := { pagedPort.regs with mem := m } } }

theorem pagedWith_rest (m : Word → Word) : Rest (pagedWith m) (pagedWith m).dev.regs :=
  ⟨rfl, rfl, rfl, rfl, rfl, (by decide : 2 < 4)⟩

section Only

variable {text : List Char} {ws : List Word} (htext : HexText text ws) (hws : ws ≠ [])
include htext hws

/-- What a load that writes only the image does on the board in front of the memory `m`. -/
theorem LoadsImageOnly.paged (h : LoadsImageOnly text ws.length) (junk : Nat → Word)
    (m : Word → Word) :
    (image junk 0 text ws).length = ws.length ∧
      ∀ a : Word, ¬ (0x10000000 ≤ a.toNat ∧ a.toNat < 0x10000000 + 4 * ws.length) →
        storeAll m (placed 0 (image junk 0 text ws)) a = m a := by
  obtain ⟨r, u, g', hrun, hrest, hcount, hother⟩ := h (pagedWith m) _ junk (text.length + 1)
    (pagedWith_rest m) rfl (Nat.lt_succ_self _)
  obtain ⟨r₁, u₁, g₁, hrun₁, hrest₁, -, hwrote⟩ := loadImage_run (pagedWith_rest m) htext hws junk
    (Nat.lt_succ_self _)
  rw [hrun] at hrun₁
  obtain rfl : u = u₁ := congrArg Prod.snd hrun₁
  obtain rfl : g' = g₁ := hrest.regs.symm.trans hrest₁.regs
  refine ⟨?_, fun a ha => ?_⟩
  · have := hwrote.drwWrites
    rw [length_loadStores] at this
    omega
  · have hmem : g'.mem = storeAll m (placed 0 (image junk 0 text ws)) := by
      rw [hwrote.mem, ← loadStores_pageIncr]
      rfl
    rw [← hmem]
    exact hother a ha

/-- A file that ends in white space has one word too many stored. -/
theorem LoadsImageOnly.endsBlank (h : LoadsImageOnly text ws.length) : endsBlank text = false := by
  obtain ⟨hlen, -⟩ := h.paged htext hws (fun _ => 0) (fun _ => 0)
  cases hend : Stdio.endsBlank text with
  | false => rfl
  | true =>
    rw [image, hend] at hlen
    simp at hlen

/-- An image that does not fit comes round to address 0. -/
theorem LoadsImageOnly.fits (h : LoadsImageOnly text ws.length) :
    0x10000000 + 4 * ws.length ≤ 2 ^ 32 := by
  by_contra hfit
  let cleared : Word → Word := fun _ => 0
  let last : Word := storeAll cleared (placed 0 (image (fun _ => 0) 0 text ws)) 0
  -- a memory whose word at 0 is not the one that ends up there
  obtain ⟨hlen, hother⟩ := h.paged htext hws (fun _ => 0) fun _ => last + 1
  have hzero : imemAddr (0 + 0x3C000000) = 0 := by decide
  obtain ⟨p, hp, hp0⟩ := placed_mem (k := 0) (l := image (fun _ => 0) 0 text ws) (j := 0x3C000000)
    (by omega)
  rw [hzero] at hp0
  have hkept : last = last + 1 :=
    (storeAll_congr cleared _ ⟨p, hp, hp0⟩).trans (hother 0 (by simp))
  have hnat := congrArg BitVec.toNat hkept
  have hone : (1 : Word).toNat = 1 := rfl
  have hlt := last.isLt
  rw [BitVec.toNat_add, hone] at hnat
  omega

/-- **When the load writes only the image**: exactly if the file does not end in white space and the
image fits below the end of the address space. -/
theorem loadImage_only_iff :
    LoadsImageOnly text ws.length ↔
      endsBlank text = false ∧ 0x10000000 + 4 * ws.length ≤ 2 ^ 32 := by
  constructor
  · intro h
    exact ⟨h.endsBlank htext hws, h.fits htext hws⟩
  · rintro ⟨hend, hfit⟩ w g junk fuel hw hincr hfuel
    obtain ⟨r, u, g', hrun, hrest, -, hwrote⟩ := loadImage_run hw htext hws junk hfuel
    have himage : image junk 0 text ws = ws := by
      rw [image, hend]
      exact List.append_nil ws
    rw [himage] at hwrote
    refine ⟨r, u, g', hrun, hrest, ?_, fun a ha => ?_⟩
    · rw [hwrote.drwWrites, length_loadStores]
    · rw [hwrote.mem, hincr, loadStores_pageIncr]
      refine storeAll_other g.mem _ fun p hp heq => ha ?_
      obtain ⟨j, hj, hpj⟩ := mem_placed hp
      have haddr := congrArg BitVec.toNat (heq.symm.trans hpj)
      rw [imemAddr_toNat (by omega)] at haddr
      omega

end Only

theorem loadImage_only_oneDigit :
    LoadsImageOnly ['1'] 1 ↔ endsBlank ['1'] = false ∧ 0x10000000 + 4 * 1 ≤ 2 ^ 32 :=
  loadImage_only_iff (show HexText ['1'] [1] from .last (isWord_digit (c := '1') rfl)) (by decide)

/-- After two words and a newline the loop writes a third word: whatever `d` held. -/
theorem loadImage_twoLines_stray :
    ¬ LoadsImageOnly twoLines 2 ∧
      ∃ r u g', loadImage 5 twoLines (fun _ => 7) pagedWorld = (.ok r, u) ∧ Rest u g' ∧
        drwWrites g'.bus = 3 ∧ g'.mem 0x10000008 = 7 := by
  refine ⟨fun h => ?_, ?_⟩
  · exact absurd (h.endsBlank twoLines_text (by decide)) (by decide)
  · obtain ⟨r, u, g', hrun, hrest, -, hwrote⟩ := loadImage_run pagedWorld_rest twoLines_text
      (by decide) (fun _ => 7) (show twoLines.length < 5 by decide)
    refine ⟨r, u, g', hrun, hrest, hwrote.drwWrites.trans (by decide), ?_⟩
    rw [hwrote.mem]
    rfl

/-! ## When the loop ends -/

section Ends

variable {μ : Type} [TargetBus μ] {w : World (Port μ)} {g : Regs μ}

/-- The load loop ends, with at most one write of DRW more than the file has characters. -/
def LoadEnds (text : List Char) (junk : Nat → Word) (w : World (Port μ)) (g : Regs μ) : Prop :=
  ∃ fuel r u g', loadImage fuel text junk w = (.ok r, u) ∧ Rest u g' ∧
    drwWrites g'.bus ≤ drwWrites g.bus + (text.length + 1)

/-- The scans stop at a character they do not get past, and so does the loop, for ever. -/
theorem loadImage_loops (hw : Rest w g) {text : List Char} (h : scannable text = false)
    (junk : Nat → Word) (fuel : Nat) : ∃ u, loadImage fuel text junk w = (.error .looping, u) := by
  have hscan : feof (scanUpTo (1024 * fuel) (Stream.ofText text)).2 = false :=
    scanUpTo_of_not_scannable h rfl (1024 * fuel)
  have hfails := loadChunks_fails junk fuel 0 (Stream.ofText text) g.program
    (show Loading g.incr g.program from ⟨program_programmed g, rfl⟩) rfl hscan
  exact opening_fails hfails w hw

/-- **When the load loop ends.**  For every content of the file, every memory, every increment of TAR,
every pattern of WAIT answers and whatever `d` is: exactly if every character is white space, a sign,
a hexadecimal digit or the `x` of a leading `0x`. -/
theorem loadImage_ends_iff (hw : Rest w g) (text : List Char) (junk : Nat → Word) :
    LoadEnds text junk w g ↔ scannable text = true := by
  constructor
  · rintro ⟨fuel, r, u, g', hrun, -⟩
    by_contra h
    obtain ⟨u', hloops⟩ := loadImage_loops hw (by simpa using h) junk fuel
    rw [hrun] at hloops
    cases hloops
  · intro h
    obtain ⟨heof, hlen⟩ := scanUpTo_of_scannable (show scannable (Stream.ofText text).rest = true from h)
      (show text.length < 1024 * (text.length + 1) by omega)
    obtain ⟨g', hchunks, hwrote⟩ := loadChunks_stores junk (text.length + 1) 0 (Stream.ofText text)
      g.program (show Loading g.incr g.program from ⟨program_programmed g, rfl⟩) rfl heof
    have hrun : Yields Rest (loadImage (text.length + 1) text junk) g _ g' := opening_yields hchunks
    obtain ⟨u, hu, hrest⟩ := hrun w hw
    refine ⟨_, _, u, g', hu, hrest, ?_⟩
    have hcount := hwrote.drwWrites
    rw [length_loadStores, length_filled] at hcount
    have hstart : drwWrites g.program.bus = drwWrites g.bus := rfl
    have htext : (Stream.ofText text).rest.length = text.length := rfl
    omega

theorem loadImage_ends_empty : LoadEnds [] (fun _ => 7) pagedWorld pagedPort.regs :=
  (loadImage_ends_iff pagedWorld_rest [] (fun _ => 7)).mpr rfl

/-- A record of an Intel HEX file starts with a colon, and the loop does not get past it. -/
theorem loadImage_colon_loops :
    ¬ LoadEnds [':', '1', '0'] (fun _ => 7) pagedWorld pagedPort.regs := by
  rintro ⟨fuel, r, u, g', hrun, -⟩
  obtain ⟨u', hloops⟩ := loadImage_loops pagedWorld_rest
    (show scannable [':', '1', '0'] = false by decide) (fun _ => 7) fuel
  rw [hrun] at hloops
  cases hloops

end Ends

end Expedition
