import Expedition.Load.Loop

/-!
# What `loadProgram` checks

The target's memory here is one that may give a stored word back as any value (`Distorting`).

* `loadFile_yields` — the check that follows the load finds the stream at its end and reads nothing
  back.
* `loadProgram_run` — so `loadProgram` returns 0 whatever the memory holds.
* `loadProgram_vouches_iff` — when a return of 0 means that the image is in the memory.
-/

namespace Expedition

open Exec Stdio

/-! ## A memory that may distort -/

/-- Cells, and how each of them is read back. -/
structure Distorting where
  cells : Word → Word
  readBack : Word → Word → Word

instance : TargetBus Distorting where
  load a m := (m.readBack a (m.cells a), m)
  store a v m := { m with cells := Function.update m.cells a v }

/-! ## The load and the check -/

section Load

variable {μ : Type} [TargetBus μ] (junk : Nat → Word)

/-- The memory when the words still in the file are stored too. -/
def pending (junk : Nat → Word) (k : Nat) (text : List Char) (ws : List Word) (m : μ) : μ :=
  storeAll m (placed k (image junk k text ws))

/-- At the end of the stream the check does nothing. -/
theorem checkChunks_eof {σ : Type} [JtagDevice σ] (fuel : Nat) (addr : Word) {c : CheckAcc}
    (h : feof c.fp = true) : checkChunks junk fuel addr c = (pure c : Drv σ CheckAcc) := by
  cases fuel with
  | zero => rw [checkChunks, if_pos h]
  | succ fuel => rw [checkChunks, if_pos h]

/-- Everything after `fopen`: the words of the file are stored, nothing is read back, and 0 is
returned. -/
theorem loadFile_yields {fuel : Nat} {text : List Char} {ws : List Word} (htext : HexText text ws)
    (hne : text ≠ []) (hfuel : text.length < fuel) {g : Regs μ} (hincr : g.incr = pageIncr) :
    ∃ g', Yields Rest (loadFile fuel text junk) g 0 g' ∧
      g'.mem = TargetBus.store set_imem 1 (pending junk 0 text ws g.mem) := by
  obtain ⟨g₁, h₁, hwrote⟩ := loadChunks_image junk htext hne ⟨program_programmed g, hincr⟩ hfuel
  have hmem : g₁.mem = pending junk 0 text ws g.mem := by
    rw [hwrote.mem, loadStores_pageIncr]
    rfl
  refine ⟨(g₁.program.program.setTar set_imem).writeDrw 1, ?_, ?_⟩
  · refine opening_yields (Yields.bind h₁ (opening_yields ?_))
    show Yields Rest (checkChunks junk fuel 0x10000000 ⟨_, ⟨[], true⟩, 0⟩ >>= _) _ _ _
    rw [checkChunks_eof junk fuel _ (by rfl)]
    exact Yields.bind (Yields.pure _ _)
      (Yields.bind (writeMemory_yields set_imem 1 _) (Yields.pure _ _))
  · show TargetBus.store (wordAlign set_imem) 1 g₁.mem = _
    rw [hmem]
    rfl

end Load

/-! ## What a return of 0 says -/

/-- The value of the cell at `a` after the stores `l`, if it was `v` before. -/
def lastAt (a v : Word) (l : List (Word × Word)) : Word :=
  l.foldl (fun v p => if p.1 = a then p.2 else v) v

theorem storeAll_distorting (l : List (Word × Word)) (m : Distorting) :
    (storeAll m l).readBack = m.readBack ∧ ∀ a, (storeAll m l).cells a = lastAt a (m.cells a) l := by
  induction l generalizing m with
  | nil => exact ⟨rfl, fun _ => rfl⟩
  | cons p l ih =>
    obtain ⟨hback, hcells⟩ := ih (TargetBus.store p.1 p.2 m)
    refine ⟨hback, fun a => (hcells a).trans ?_⟩
    show lastAt a (Function.update m.cells p.1 p.2 a) l = lastAt a (if p.1 = a then p.2 else _) l
    by_cases h : p.1 = a
    · rw [if_pos h, ← h, Function.update_self]
    · rw [if_neg h, Function.update_of_ne (Ne.symm h)]

/-- What `loadProgram` stores: the request to halt, the image, and the switch of the memory map. -/
def programStores (junk : Nat → Word) (text : List Char) (ws : List Word) : List (Word × Word) :=
  (DHCSR_ADDR, haltRequest) ::
    placed 0 (image junk 0 text ws) ++ [(set_imem, 1)]

theorem storeAll_programStores (junk : Nat → Word) (text : List Char) (ws : List Word)
    (m : Distorting) :
    storeAll m (programStores junk text ws) =
      TargetBus.store set_imem 1
        (pending junk 0 text ws (TargetBus.store DHCSR_ADDR haltRequest m)) := by
  unfold programStores pending storeAll
  rw [List.cons_append, List.foldl_cons, List.foldl_append, List.foldl_cons, List.foldl_nil]

/-- The target answers the request to halt by reporting the core halted. -/
def Distorting.reportsHalt (m : Distorting) : Bool :=
  coreHalted (m.readBack DHCSR_ADDR haltRequest)

variable {w : World (Port Distorting)} {g : Regs Distorting} {text : List Char} {ws : List Word}

theorem pc_printf_yields (t : String) (g : Regs Distorting) : Yields Rest (pc_printf t) g () g :=
  Yields.update fun _ h => ⟨h.tck, h.tms, h.tap, h.state, h.regs, h.patience⟩

/-- The opening of `loadProgram`, up to the test of DHCSR. -/
theorem loadProgram_opening (hw : Rest w g) (text : List Char) (fuel : Nat) (junk : Nat → Word) :
    ∃ v g₁, Rest v g₁ ∧ g₁.incr = g.incr ∧
      g₁.mem = TargetBus.store DHCSR_ADDR haltRequest g.mem ∧
      loadProgram fuel (some text) junk w =
        (if !g.mem.reportsHalt then panic "cannot halt the core, check DHCSR...\r\n"
        else pc_printf "loading program\r\n" >>= fun _ => pc_printf "Program open\r\n" >>= fun _ =>
          loadFile fuel text junk : Drv (Port Distorting) Word) v := by
  have halign : wordAlign DHCSR_ADDR = DHCSR_ADDR := by decide
  obtain ⟨w₁, h₁, hw₁⟩ := PowerupDAP_yields g w hw
  obtain ⟨w₂, h₂, hw₂⟩ := writeMemory_yields DHCSR_ADDR haltRequest _ w₁ hw₁
  obtain ⟨w₃, h₃, hw₃⟩ := readMemory_yields DHCSR_ADDR _ w₂ hw₂
  have hmem : ((g.poweredUp.program.setTar DHCSR_ADDR).writeDrw haltRequest).mem =
      TargetBus.store DHCSR_ADDR haltRequest g.mem := by
    show TargetBus.store (wordAlign DHCSR_ADDR) haltRequest g.mem = _
    rw [halign]
  have hread : (TargetBus.load (wordAlign DHCSR_ADDR)
      ((g.poweredUp.program.setTar DHCSR_ADDR).writeDrw haltRequest).mem).1 =
      g.mem.readBack DHCSR_ADDR haltRequest := by
    rw [hmem, halign]
    show g.mem.readBack DHCSR_ADDR (Function.update g.mem.cells DHCSR_ADDR haltRequest DHCSR_ADDR) = _
    rw [Function.update_self]
  rw [hread] at h₃
  refine ⟨w₃, _, hw₃, rfl, hmem, ?_⟩
  rw [loadProgram, run_bind_ok h₁, run_bind_ok h₂, run_bind_ok h₃]
  rfl

/-- Where the target does not report the core halted, `loadProgram` does not return. -/
theorem loadProgram_panics (hw : Rest w g) (text : List Char) (fuel : Nat) (junk : Nat → Word)
    (hhalt : g.mem.reportsHalt = false) :
    ∃ u, loadProgram fuel (some text) junk w =
      (.error (.panic "cannot halt the core, check DHCSR...\r\n"), u) := by
  obtain ⟨v, -, -, -, -, hrun⟩ := loadProgram_opening hw text fuel junk
  refine ⟨v, hrun.trans ?_⟩
  rw [hhalt]
  rfl

/-- **Otherwise it returns 0**, and the word then read back at each address is what the target makes
of the last word stored there. -/
theorem loadProgram_run (hw : Rest w g) (hincr : g.incr = pageIncr) (htext : HexText text ws)
    (hws : ws ≠ []) (junk : Nat → Word) {fuel : Nat} (hfuel : text.length < fuel)
    (hhalt : g.mem.reportsHalt = true) :
    ∃ u, loadProgram fuel (some text) junk w = (.ok 0, u) ∧ ∀ k,
      (readMemory (imemAddr k) u).1 = .ok (g.mem.readBack (imemAddr k)
        (lastAt (imemAddr k) (g.mem.cells (imemAddr k)) (programStores junk text ws))) := by
  have hne : text ≠ [] := by
    rintro rfl
    exact hws htext.eq_nil
  obtain ⟨v, g₁, hv, hincr₁, hmem₁, hrun⟩ := loadProgram_opening hw text fuel junk
  obtain ⟨g₂, hload, hmem₂⟩ := loadFile_yields junk htext hne hfuel (hincr₁.trans hincr)
  have hyields : Yields Rest (pc_printf "loading program\r\n" >>= fun _ =>
      pc_printf "Program open\r\n" >>= fun _ => loadFile fuel text junk) g₁ 0 g₂ :=
    Yields.bind (pc_printf_yields _ g₁) (Yields.bind (pc_printf_yields _ g₁) hload)
  obtain ⟨u, hu, hrest⟩ := hyields v hv
  refine ⟨u, ?_, fun k => ?_⟩
  · rw [hrun, hhalt, if_neg (by decide)]
    exact hu
  · obtain ⟨u', hu', -⟩ := readMemory_yields (imemAddr k) g₂ u hrest
    have hfinal : g₂.mem = storeAll g.mem (programStores junk text ws) := by
      rw [hmem₂, hmem₁, storeAll_programStores]
    obtain ⟨hback, hcells⟩ := storeAll_distorting (programStores junk text ws) g.mem
    have hload₂ : (TargetBus.load (wordAlign (imemAddr k)) g₂.mem).1 =
        g₂.mem.readBack (imemAddr k) (g₂.mem.cells (imemAddr k)) := by
      rw [wordAlign_imemAddr]
      rfl
    rw [hu', hload₂, hfinal, hback, hcells]

/-- A return of 0 vouches for the image: each of its words is read back. -/
def Vouches (fuel : Nat) (text : List Char) (ws : List Word) (junk : Nat → Word)
    (w : World (Port Distorting)) : Prop :=
  ∀ u, loadProgram fuel (some text) junk w = (.ok 0, u) →
    ∀ k (hk : k < ws.length), (readMemory (imemAddr k) u).1 = .ok (ws.get ⟨k, hk⟩)

/-- **What `loadProgram` vouches for.**  For every file of words and every memory, a return of 0
means that the image is in the target exactly if the target does not report the core halted (then
there is no return) or gives the words stored back unchanged by itself: the check adds nothing. -/
theorem loadProgram_vouches_iff (hw : Rest w g) (hincr : g.incr = pageIncr) (htext : HexText text ws)
    (hws : ws ≠ []) (junk : Nat → Word) {fuel : Nat} (hfuel : text.length < fuel) :
    Vouches fuel text ws junk w ↔
      g.mem.reportsHalt = false ∨ ∀ k (hk : k < ws.length),
        g.mem.readBack (imemAddr k)
          (lastAt (imemAddr k) (g.mem.cells (imemAddr k)) (programStores junk text ws)) =
          ws.get ⟨k, hk⟩ := by
  cases hhalt : g.mem.reportsHalt with
  | false =>
    obtain ⟨u, hu⟩ := loadProgram_panics hw text fuel junk hhalt
    refine ⟨fun _ => .inl rfl, fun _ v hv => ?_⟩
    rw [hu] at hv
    cases hv
  | true =>
    obtain ⟨u, hu, hread⟩ := loadProgram_run hw hincr htext hws junk hfuel hhalt
    constructor
    · intro h
      refine .inr fun k hk => ?_
      exact Except.ok.inj ((hread k).symm.trans (h u hu k hk))
    · rintro (h | h) v hv k hk
      · cases h
      · have huv : v = u := by rw [hu] at hv; exact (congrArg Prod.snd hv).symm
        rw [huv, hread k, h k hk]

/-- The board at rest in front of a target with the given memory. -/
def boardWith (m : Distorting) : World (Port Distorting) :=
  World.powerOn false false false .runTestIdle
    { irShift := [], drShift := [], scanWait := false
      regs :=
        { ir := 0xE, select := 0, ctrlstat := 0, csw := 0, tar := 0, rdata := 0, mem := m, waits := []
          incr := pageIncr, bus := [] } } 'n' 1

theorem boardWith_rest (m : Distorting) : Rest (boardWith m) (boardWith m).dev.regs :=
  ⟨rfl, rfl, rfl, rfl, rfl, Nat.zero_lt_one⟩

/-- A file of one word and no newline. -/
def oneWord : List Char := ['1', '2', '3', '4', '5', '6', '7', '8']

theorem oneWord_text : HexText oneWord [0x12345678] := by
  have hdigits : oneWord.all isxdigit = true := by decide
  exact HexText.last ⟨by decide, by decide, List.all_eq_true.mp hdigits⟩

/-- An instruction memory that holds nothing: every word but DHCSR reads back as 0. -/
def deadMemory : Distorting :=
  { cells := fun _ => 0, readBack := fun a v => if a = DHCSR_ADDR then v else 0 }

def soundMemory : Distorting := { cells := fun _ => 0, readBack := fun _ v => v }

theorem loadProgram_vouches_soundMemory :
    Vouches 9 oneWord [0x12345678] (fun _ => 0) (boardWith soundMemory) := by
  refine (loadProgram_vouches_iff (boardWith_rest soundMemory) rfl oneWord_text (by decide) _
    (by decide)).mpr (.inr fun k hk => ?_)
  have hk0 : k = 0 := Nat.lt_one_iff.mp hk
  subst hk0
  rfl

/-- With an instruction memory that holds nothing, the load of one word is reported a success. -/
theorem loadProgram_deadMemory :
    ¬ Vouches 9 oneWord [0x12345678] (fun _ => 0) (boardWith deadMemory) := by
  intro h
  obtain ⟨u, hu, hread⟩ := loadProgram_run (boardWith_rest deadMemory) rfl oneWord_text (by decide)
    (fun _ => 0) (show oneWord.length < 9 by decide) (by decide)
  have h0 := (hread 0).symm.trans (h u hu 0 (by decide))
  exact absurd (Except.ok.inj h0) (by decide)

end Expedition
