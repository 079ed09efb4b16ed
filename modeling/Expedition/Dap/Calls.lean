import Expedition.Dap.Memory

/-!
# The driver's calls, scan by scan

The threads of the program share the port, and a call of the driver is several scans.  Here a call is
the list of its scans, so that other scans can be put between them.

* `Scan.run` — what the port makes of one scan, or nothing where the driver panics on it;
  `Scan.exec_yields` and `Scan.exec_panics` are the driver doing it.
* `readMemory_scans`, `writeMemory_scans`, `PowerupDAP_scans` — the calls are their lists.
* `Opening` — where the scans of a memory call have brought the port, as long as no other comes in
  between; `Opening.step` is one scan more.
-/

namespace Expedition

open Exec

/-- One scan of the debug port. -/
inductive Scan where
  | setIR (A : Byte)
  | shiftData (data : Word) (addr : Byte) (rw : Bool)
  /-- The scan of RDBUFF in `PowerupDAP`, whose result has to be `want`. -/
  | expect (name : String) (want : Word)
  deriving DecidableEq, Repr

namespace Scan

/-- The driver's function for the scan. -/
def exec {σ : Type} [JtagDevice σ] : Scan → Drv σ Word
  | setIR A => do
    Expedition.setIR A
    pure 0
  | shiftData data addr rw => Expedition.shiftData data addr rw
  | expect name want => do
    let rd ← Expedition.shiftData 0 DP_RDBUFF READ
    Expedition.expect name rd want
    pure rd

/-- The message of the panic, where the scan ends in one. -/
def message {μ : Type} (g : Regs μ) : Scan → String
  | expect name _ => if Port.onACC g then name ++ " " ++ hex g.rdata.toNat else "invalid OK Stat\r\n"
  | _ => "invalid OK Stat\r\n"

/-- What the port answers and how it is left.  A data scan with IR at IDCODE, where a reset puts it,
is not acknowledged, and the driver panics. -/
def run {μ : Type} [TargetBus μ] : Scan → Regs μ → Option (Word × Regs μ)
  | setIR A, g => some (0, { g with ir := A.setWidth 4 })
  | shiftData data addr rw, g =>
    if Port.onACC g then some (g.rdata, g.settled.transact rw (addr.extractLsb' 2 2) data) else none
  | expect _ want, g =>
    if Port.onACC g ∧ g.rdata = want then
      some (g.rdata, g.settled.transact READ (DP_RDBUFF.extractLsb' 2 2) 0)
    else none

end Scan

/-- Scans one after the other; the result is that of the last. -/
def execScans {σ : Type} [JtagDevice σ] : List Scan → Drv σ Word
  | [] => pure 0
  | [s] => s.exec
  | s :: l => do
    let _ ← s.exec
    execScans l

/-! ## The calls as lists -/

/-- `writeDPACC` or `writeAPACC`, with IR set first. -/
def writeScans (ir : Byte) (data : Word) (addr : Byte) : List Scan :=
  [.setIR ir, .shiftData data addr WRITE]

/-- Bank 0 and CSW: how every memory function begins. -/
def bankScans : List Scan :=
  writeScans JTAG_DPACC (0 <<< 4) DP_SELECT ++ writeScans JTAG_APACC CSW_WORD_INC AP_CSW

/-- A memory call up to its access of DRW. -/
def openScans (a : Word) : List Scan :=
  bankScans ++ writeScans JTAG_APACC a AP_TAR ++ [.setIR JTAG_APACC]

def readMemoryScans (a : Word) : List Scan :=
  openScans a ++ [.shiftData 0 AP_DRW READ, .setIR JTAG_DPACC, .shiftData 0 DP_RDBUFF READ]

def writeMemoryScans (a v : Word) : List Scan := openScans a ++ [.shiftData v AP_DRW WRITE]

/-- One check of `PowerupDAP`: a debug-port register is written and read back. -/
def checkScans (name : String) (data : Word) (addr : Byte) (want : Word) : List Scan :=
  writeScans JTAG_DPACC data addr ++
    [.setIR JTAG_DPACC, .shiftData 0 addr READ, .setIR JTAG_DPACC, .expect name want]

def PowerupDAPScans : List Scan :=
  checkScans "DP SELECT" 0x12345678 DP_SELECT 0x12000070 ++
  checkScans "DP SELECT" 0xedcba987 DP_SELECT 0xed000080 ++
  checkScans "DP CTRL" 0x10000000 DP_CTRLSTAT 0x30000000 ++
  checkScans "DP CTRL" 0x40000000 DP_CTRLSTAT 0xc0000000 ++
  checkScans "DP CTRL" 0x50000000 DP_CTRLSTAT 0xf0000000 ++
  (writeScans JTAG_DPACC (0xf <<< 4) DP_SELECT ++
    [.setIR JTAG_APACC, .shiftData 0 AP_IDR READ, .setIR JTAG_DPACC, .expect "AP IDR" 0x24770011])

section Driver

variable {σ : Type} [JtagDevice σ]

theorem execScans_cons (s : Scan) {l : List Scan} (hl : l ≠ []) :
    (execScans (s :: l) : Drv σ Word) = s.exec >>= fun _ => execScans l := by
  cases l with
  | nil => exact absurd rfl hl
  | cons => rfl

theorem execScans_setIR (A : Byte) {l : List Scan} (hl : l ≠ []) :
    (execScans (.setIR A :: l) : Drv σ Word) = setIR A >>= fun _ => execScans l := by
  rw [execScans_cons _ hl, Scan.exec, bind_assoc]
  rfl

/-- A register write at the head of a list. -/
theorem execScans_write (ir : Byte) (data : Word) (addr : Byte) {l : List Scan} (hl : l ≠ []) :
    (execScans (writeScans ir data addr ++ l) : Drv σ Word) =
      writeACC ir data addr true >>= fun _ => execScans l := by
  unfold writeScans writeACC
  rw [List.cons_append, List.cons_append, List.nil_append, execScans_setIR _ (by simp),
    execScans_cons _ hl, when_true, bind_assoc]
  congr 1
  funext _
  rw [bind_assoc]
  rfl

/-- And at its end. -/
theorem execScans_write_last (ir : Byte) (data : Word) (addr : Byte) :
    (execScans (writeScans ir data addr) >>= fun _ => pure () : Drv σ Unit) =
      writeACC ir data addr true := by
  unfold writeScans writeACC
  rw [execScans_setIR _ (by simp), when_true, bind_assoc]
  rfl

/-- The opening of a memory function, before the rest. -/
theorem execScans_bank {l : List Scan} (hl : l ≠ []) :
    (execScans (bankScans ++ l) : Drv σ Word) =
      writeBanksel 0 true >>= fun _ => writeAPACC CSW_WORD_INC AP_CSW true >>= fun _ => execScans l := by
  unfold bankScans
  rw [List.append_assoc, execScans_write _ _ _ (by simp [writeScans]), execScans_write _ _ _ hl]
  rfl

theorem readMemory_scans (a : Word) : (readMemory a : Drv σ Word) = execScans (readMemoryScans a) := by
  unfold readMemoryScans openScans
  rw [List.append_assoc, List.append_assoc, execScans_bank (by simp), execScans_write _ _ _ (by simp),
    List.cons_append, List.nil_append, execScans_setIR _ (by simp), execScans_cons _ (by simp),
    execScans_setIR _ (by simp)]
  rfl

theorem writeMemory_scans (a v : Word) :
    (writeMemory a v : Drv σ Unit) = execScans (writeMemoryScans a v) >>= fun _ => pure () := by
  have hlast : [Scan.setIR JTAG_APACC] ++ [Scan.shiftData v AP_DRW WRITE] =
      writeScans JTAG_APACC v AP_DRW := rfl
  unfold writeMemoryScans openScans
  rw [List.append_assoc, List.append_assoc, hlast, execScans_bank (by simp [writeScans]),
    execScans_write _ _ _ (by simp [writeScans]), bind_assoc]
  simp only [bind_assoc, execScans_write_last]
  rfl

/-- One check of `PowerupDAP` at the head of a list. -/
theorem execScans_check (name : String) (data : Word) (addr : Byte) (want : Word) {l : List Scan}
    (hl : l ≠ []) :
    (execScans (checkScans name data addr want ++ l) : Drv σ Word) =
      writeDPACC data addr true >>= fun _ => readDPACC addr true true >>= fun rd =>
        expect name rd want >>= fun _ => execScans l := by
  unfold checkScans readDPACC readACC rdBuff
  rw [List.append_assoc, execScans_write _ _ _ (by simp)]
  simp only [List.cons_append, List.nil_append, when_true, bind_assoc, if_true]
  rw [execScans_setIR _ (by simp), execScans_cons _ (by simp), execScans_setIR _ (by simp),
    execScans_cons _ hl]
  simp only [Scan.exec, bind_assoc]
  rfl

/-- Its last check. -/
theorem execScans_idr :
    (execScans (writeScans JTAG_DPACC (0xf <<< 4) DP_SELECT ++ [.setIR JTAG_APACC,
      .shiftData 0 AP_IDR READ, .setIR JTAG_DPACC, .expect "AP IDR" 0x24770011]) >>= fun _ => pure () :
      Drv σ Unit) =
      writeBanksel 0xf true >>= fun _ => readAPACC AP_IDR true true >>= fun rd =>
        expect "AP IDR" rd 0x24770011 := by
  unfold readAPACC readACC rdBuff
  rw [execScans_write _ _ _ (by simp), execScans_setIR _ (by simp), execScans_cons _ (by simp),
    execScans_setIR _ (by simp)]
  simp only [execScans, Scan.exec, bind_assoc, when_true, if_true, pure_bind, bind_unit]
  rfl

theorem PowerupDAP_scans :
    (PowerupDAP : Drv σ Unit) = execScans PowerupDAPScans >>= fun _ => pure () := by
  unfold PowerupDAPScans PowerupDAP
  simp only [List.append_assoc]
  rw [execScans_check _ _ _ _ (by simp [checkScans]), execScans_check _ _ _ _ (by simp [checkScans]),
    execScans_check _ _ _ _ (by simp [checkScans]), execScans_check _ _ _ _ (by simp [checkScans]),
    execScans_check _ _ _ _ (by simp [writeScans])]
  simp only [bind_assoc, execScans_idr]

end Driver

variable {μ : Type}

/-! ## Where a memory call is -/

/-- Where the first `k` scans of a memory call at `a` have brought the port. -/
def Opening (a : Word) (g : Regs μ) : Nat → Prop
  | 0 => True
  | 1 => g.ir = 0xA
  | 2 => g.select = 0
  | 3 => g.ir = 0xB ∧ g.select = 0
  | 4 | 5 => Programmed g
  | _ => Programmed g ∧ g.tar = a

/-- The chip's own writes do not matter to it. -/
theorem Opening.mem {a : Word} {g : Regs μ} {k : Nat} (h : Opening a g k) (m : μ) :
    Opening a { g with mem := m } k := by
  match k, h with
  | 0, h | 1, h | 2, h | 3, h => exact h
  | 4, h | 5, h => exact ⟨h.ir, h.select, h.csw⟩
  | _ + 6, h => exact ⟨⟨h.1.ir, h.1.select, h.1.csw⟩, h.2⟩

/-- Where the first `k` scans of a read at `a` have brought the port; from the eighth on, the access of
DRW, its result is `w`. -/
def ReadWay (a w : Word) (g : Regs μ) (k : Nat) : Prop :=
  if k ≤ 7 then Opening a g k else g.rdata = w ∧ (k = 9 → g.ir = 0xA)

theorem ReadWay.mem {a w : Word} {g : Regs μ} {k : Nat} (h : ReadWay a w g k) (m : μ) :
    ReadWay a w { g with mem := m } k := by
  unfold ReadWay at *
  split at h
  · rename_i hk
    rw [if_pos hk]
    exact h.mem m
  · rename_i hk
    rw [if_neg hk]
    exact h

/-! ## One scan on the port -/

variable [TargetBus μ]

/-- The driver makes a scan as `run` says. -/
theorem Scan.exec_yields {s : Scan} {g g' : Regs μ} {w : Word} (h : s.run g = some (w, g')) :
    Yields Rest s.exec g w g' := by
  cases s with
  | setIR A =>
    cases h
    exact Yields.bind (setIR_yields A g) (Yields.pure _ _)
  | shiftData data addr rw =>
    simp only [run] at h
    split at h
    · rename_i hacc
      cases h
      exact shiftData_yields data addr rw hacc
    · cases h
  | expect name want =>
    simp only [run] at h
    split at h
    · rename_i hok
      cases h
      exact Yields.bind (shiftData_yields 0 DP_RDBUFF READ hok.1)
        (Yields.bind (expect_yields hok.2 _) (Yields.pure _ _))
    · cases h

/-- A data scan with IR at IDCODE shifts the identification out where the acknowledge is expected. -/
theorem shiftData_idcode {w : World (Port μ)} {g : Regs μ} (hw : Rest w g) (hir : g.ir = 0xE)
    (data : Word) (addr : Byte) (rw : Bool) :
    ∃ u, shiftData data addr rw w = (.error (.panic "invalid OK Stat\r\n"), u) := by
  have hcap : w.dev.captureDR = w.dev.withDR (Bits.toBits 32 IDCODE.toNat) := by
    unfold Port.captureDR
    rw [if_neg (not_onACC (by rw [hw.regs]; exact hir)), if_pos (by rw [hw.regs]; exact hir)]
    rfl
  obtain ⟨fuel, hfuel⟩ : ∃ fuel, w.patience = fuel + 1 :=
    ⟨w.patience - 1, by have := hw.patience; omega⟩
  have hack : w.dev.captureDR.drShift = true :: true :: true :: (Bits.toBits 32 IDCODE.toNat).drop 3 := by
    rw [hcap]
    rfl
  obtain ⟨v, hrun, hvr, hvs, -⟩ := ackLoop_succ_run hw addr rw fuel hack
  rw [if_neg (by decide), if_neg (by decide), run_bind_ok (leaveState_d_path Port.dataPath hvr hvs)] at hrun
  rw [shiftData, run_bind_ok (run_read w), hfuel, run_bind, hrun]
  exact ⟨_, rfl⟩

/-- Where `run` gives nothing the driver panics, with the message of the scan. -/
theorem Scan.exec_panics {s : Scan} {w : World (Port μ)} {g : Regs μ} (h : s.run g = none)
    (hw : Rest w g) (hir : Port.onACC g ∨ g.ir = 0xE) :
    ∃ u, s.exec w = (.error (.panic (s.message g)), u) := by
  cases s with
  | setIR A => cases h
  | shiftData data addr rw =>
    simp only [run, ite_eq_right_iff, reduceCtorEq, imp_false] at h
    exact shiftData_idcode hw (hir.resolve_left h) data addr rw
  | expect name want =>
    simp only [run, ite_eq_right_iff, reduceCtorEq, imp_false, not_and] at h
    by_cases hacc : Port.onACC g
    · obtain ⟨u, hu, -⟩ := shiftData_yields 0 DP_RDBUFF READ hacc w hw
      refine ⟨u, ?_⟩
      simp only [exec, message, hacc, if_true]
      rw [run_bind_ok hu, run_bind, Expedition.expect, if_pos (h hacc)]
      rfl
    · obtain ⟨u, hu⟩ := shiftData_idcode hw (hir.resolve_left hacc) 0 DP_RDBUFF READ
      refine ⟨u, ?_⟩
      simp only [exec, message, hacc, if_false]
      rw [run_bind, hu]

/-- `reset` and `leaveState` leave IR at IDCODE and touch nothing else. -/
theorem reset_yields (g : Regs μ) :
    Yields Rest (reset >>= fun _ => leaveState) g () { g with ir := 0xE } := by
  intro w hw
  refine ⟨_, reset_leaveState_run hw.tck, ?_⟩
  obtain ⟨tck, tms, tdi, tap, dev, state, led, console, patience, waits, log⟩ := w
  obtain ⟨rfl, rfl, rfl, rfl, rfl, hp⟩ := hw
  exact ⟨rfl, rfl, rfl, rfl, rfl, hp⟩

/-! ## The way of a memory call -/

/-- One more scan of the opening, with none in between. -/
theorem Opening.step {a : Word} {g : Regs μ} {k : Nat} (h : Opening a g k) (hk : k < 7) :
    ∃ s w g', (openScans a)[k]? = some s ∧ s.run g = some (w, g') ∧ g'.mem = g.mem ∧
      Opening a g' (k + 1) := by
  match k, hk, h with
  | 0, _, h => exact ⟨_, _, _, rfl, rfl, rfl, rfl⟩
  | 1, _, h =>
    refine ⟨_, _, _, rfl, if_pos (.inl h), ?_⟩
    unfold Regs.transact
    rw [if_pos (show g.settled.ir = 0xA from h)]
    exact ⟨rfl, rfl⟩
  | 2, _, h => exact ⟨_, _, _, rfl, rfl, rfl, rfl, h⟩
  | 3, _, h =>
    refine ⟨_, _, _, rfl, if_pos (.inr h.1), ?_⟩
    have hcsw : g.settled.transact WRITE (AP_CSW.extractLsb' 2 2) CSW_WORD_INC =
        { g.settled with csw := CSW_WORD_INC } := by
      unfold Regs.transact
      rw [if_neg (by rw [show g.settled.ir = 0xB from h.1]; decide), if_pos (show g.settled.ir = 0xB from h.1)]
      exact Regs.writeAP_csw (g := g.settled) h.2 _
    rw [hcsw]
    exact ⟨rfl, h.1, h.2, rfl⟩
  | 4, _, h => exact ⟨_, _, _, rfl, rfl, rfl, rfl, h.select, h.csw⟩
  | 5, _, h =>
    refine ⟨_, _, _, rfl, if_pos h.onACC, ?_⟩
    rw [h.transact, show WRITE = false from rfl, if_neg (by decide), h.writeAP_tar]
    exact ⟨rfl, h.setTar a, rfl⟩
  | 6, _, h => exact ⟨_, _, _, rfl, rfl, rfl, ⟨rfl, h.1.select, h.1.csw⟩, h.2⟩

/-- The last scan of a write stores the word. -/
theorem Opening.write {a : Word} {g : Regs μ} (h : Opening a g 7) (v : Word) :
    ∃ s w g', (writeMemoryScans a v)[7]? = some s ∧ s.run g = some (w, g') ∧
      g'.mem = TargetBus.store (wordAlign a) v g.mem := by
  refine ⟨_, g.rdata, g.writeDrw v, rfl, ?_, ?_⟩
  · simp only [Scan.run, h.1.onACC, if_true, h.1.transact, show WRITE = false from rfl, if_false,
      Bool.false_eq_true, h.1.writeAP_drw]
  · rw [← h.2]
    rfl

theorem readMemoryScans_open {a : Word} {k : Nat} (hk : k < 7) :
    (readMemoryScans a)[k]? = (openScans a)[k]? := by
  rw [readMemoryScans, List.getElem?_append_left (by exact hk)]

theorem writeMemoryScans_open {a v : Word} {k : Nat} (hk : k < 7) :
    (writeMemoryScans a v)[k]? = (openScans a)[k]? := by
  rw [writeMemoryScans, List.getElem?_append_left (by exact hk)]

/-- One more scan of a read that is not the last. -/
theorem ReadWay.step {a w : Word} {g : Regs μ} {k : Nat} (h : ReadWay a w g k) (hk : k < 9) :
    ∃ s v g', (readMemoryScans a)[k]? = some s ∧ s.run g = some (v, g') ∧
      ReadWay a (if k = 7 then (TargetBus.load (wordAlign a) g.mem).1 else w) g' (k + 1) := by
  by_cases hopen : k < 7
  · rw [ReadWay, if_pos (by omega)] at h
    obtain ⟨s, v, g', hs, hrun, -, hnext⟩ := h.step hopen
    refine ⟨s, v, g', (readMemoryScans_open hopen).trans hs, hrun, ?_⟩
    rw [ReadWay, if_pos (by omega)]
    exact hnext
  · obtain rfl | rfl : k = 7 ∨ k = 8 := by omega
    · have h7 : Opening a g 7 := h
      refine ⟨_, g.rdata, g.readDrw, rfl, ?_, ?_⟩
      · simp only [Scan.run, h7.1.onACC, if_true, h7.1.transact, show READ = true from rfl,
          h7.1.readAP_drw]
      · rw [ReadWay, if_neg (by omega), if_pos rfl, ← h7.2]
        exact ⟨rfl, by omega⟩
    · have h8 : g.rdata = w ∧ _ := h
      exact ⟨_, _, _, rfl, rfl, h8.1, fun _ => rfl⟩

/-- The last scan of a read returns its result. -/
theorem ReadWay.last {a w : Word} {g : Regs μ} (h : ReadWay a w g 9) :
    ∃ s g', (readMemoryScans a)[9]? = some s ∧ s.run g = some (w, g') := by
  have h9 : g.rdata = w ∧ (9 = 9 → g.ir = 0xA) := h
  have hrun : (Scan.shiftData 0 DP_RDBUFF READ).run g = some (g.rdata, _) := if_pos (.inl (h9.2 rfl))
  rw [h9.1] at hrun
  exact ⟨_, _, rfl, hrun⟩

end Expedition
