import Expedition.Dap.Scan

/-!
# The memory functions on the debug port

The driver's register calls are compositions of scans, and its memory functions compositions of
those.  Each is given here by what it does to the port's registers.

* `Programmed` — after bank 0 is selected and CSW programmed, IR is at APACC and every scan of
  DRW moves one word at TAR.
* `readMemory_yields`, `writeMemory_yields` — one word in, one word out, from any register values.
* `PowerupDAP_yields`, `memRead_yields`, `memWrite_yields` — the other calls return too, and what
  they leave behind.
* `memory_calls_as_plain_memory` — after any sequence of calls, `readMemory` and `writeMemory`
  act on the target as reads and writes of plain memory.
-/

namespace Expedition

open Exec

variable {μ : Type}

/-! ## The programmed access port -/

/-- Bank 0 selected, CSW programmed, IR at APACC: how the memory functions leave the port for
their transfers. -/
structure Programmed (g : Regs μ) : Prop where
  ir : g.ir = 0xB
  select : g.select = 0
  csw : g.csw = CSW_WORD_INC

/-- What the opening of every memory function does. -/
def Regs.program (g : Regs μ) : Regs μ :=
  { g with ir := 0xB, select := 0, csw := CSW_WORD_INC, waits := settle (settle g.waits) }

def Regs.setTar (g : Regs μ) (a : Word) : Regs μ := { g with tar := a, waits := settle g.waits }

theorem Regs.apAddr_bank_zero {g : Regs μ} (h : g.select = 0) (a : BitVec 2) :
    g.apAddr a = some (0#4 ++ a) := by
  unfold Regs.apAddr
  rw [h, if_pos (by decide)]
  rfl

theorem Regs.bump_word_inc {g : Regs μ} (h : g.csw = CSW_WORD_INC) :
    g.bump = { g with tar := g.incr g.tar } := by
  unfold Regs.bump
  rw [if_pos (by rw [h]; decide)]

theorem program_programmed (g : Regs μ) : Programmed g.program := ⟨rfl, rfl, rfl⟩

theorem Programmed.setTar {g : Regs μ} (hg : Programmed g) (a : Word) : Programmed (g.setTar a) :=
  ⟨hg.ir, hg.select, hg.csw⟩

theorem Programmed.onACC {g : Regs μ} (hg : Programmed g) : Port.onACC g := .inr hg.ir

theorem expect_yields {name : String} {rd want : Word} (h : rd = want) (g : Regs μ) :
    Yields Rest (expect name rd want) g () g := by
  unfold expect
  rw [if_neg (not_not_intro h)]
  exact Yields.pure () g

theorem mbed_printf_yields (text : String) (g : Regs μ) : Yields Rest (mbed_printf text) g () g :=
  Yields.update fun _ hw => ⟨hw.tck, hw.tms, hw.tap, hw.state, hw.regs, hw.patience⟩

theorem takeWord_yields (check print : Bool) (k : Nat) (word : Word) (acc : ReadAcc) (g : Regs μ) :
    Yields Rest (takeWord check print k word acc) g (acc.take check k word) g := by
  have hprint : Yields Rest (when (acc.differs check k word && print)
      (mbed_printf ("Mismatch line " ++ hex k ++ ", was " ++ hex word.toNat ++ ", expected " ++
        hex (acc.readdata.getD k 0).toNat ++ "\r\n"))) g () g := by
    cases acc.differs check k word && print
    · exact Yields.when_false
    · exact mbed_printf_yields _ g
  exact Yields.bind hprint (Yields.pure _ _)

theorem Regs.readDP_writeDP_select (g : Regs μ) (data : Word) :
    (g.writeDP (DP_SELECT.extractLsb' 2 2) data).readDP (DP_SELECT.extractLsb' 2 2) =
      data &&& 0xFF0000F0 :=
  rfl

theorem Regs.readDP_writeDP_ctrlstat (g : Regs μ) (data : Word) :
    (g.writeDP (DP_CTRLSTAT.extractLsb' 2 2) data).readDP (DP_CTRLSTAT.extractLsb' 2 2) =
      (data &&& 0x50000000) ||| ((data &&& 0x50000000) <<< 1) :=
  rfl

variable [TargetBus μ]

/-! ## Register calls -/

theorem writeACC_yields (ir : Byte) (data : Word) (addr : Byte) (g : Regs μ)
    (hir : ir = JTAG_DPACC ∨ ir = JTAG_APACC) :
    Yields Rest (writeACC ir data addr true) g ()
      (({ g with ir := ir.setWidth 4 } : Regs μ).settled.transact false (addr.extractLsb' 2 2) data) := by
  have hacc : Port.onACC ({ g with ir := ir.setWidth 4 } : Regs μ) := by
    rcases hir with rfl | rfl
    · exact .inl rfl
    · exact .inr rfl
  unfold writeACC
  exact Yields.bind (Yields.when_true (setIR_yields ir g))
    (Yields.bind (shiftData_yields data addr WRITE hacc) (Yields.pure _ _))

/-- A write of a debug-port register. -/
theorem writeDPACC_yields (data : Word) (addr : Byte) (g : Regs μ) :
    Yields Rest (writeDPACC data addr true) g ()
      (({ g with ir := 0xA } : Regs μ).settled.writeDP (addr.extractLsb' 2 2) data) :=
  writeACC_yields JTAG_DPACC data addr g (.inl rfl)

/-- A write of an access-port register. -/
theorem writeAPACC_yields (data : Word) (addr : Byte) (g : Regs μ) :
    Yields Rest (writeAPACC data addr true) g ()
      (({ g with ir := 0xB } : Regs μ).settled.writeAP (addr.extractLsb' 2 2) data) :=
  writeACC_yields JTAG_APACC data addr g (.inr rfl)

/-- Fetching the result of the read before through RDBUFF. -/
theorem rdBuff_yields (g : Regs μ) :
    Yields Rest (rdBuff true) g g.rdata { ({ g with ir := 0xA } : Regs μ).settled with rdata := 0 } := by
  unfold rdBuff
  exact Yields.bind (Yields.when_true (setIR_yields JTAG_DPACC g))
    (shiftData_yields 0 DP_RDBUFF READ (.inl rfl))

theorem readDPACC_yields (addr : Byte) (g : Regs μ) :
    Yields Rest (readDPACC addr true true) g (g.readDP (addr.extractLsb' 2 2))
      { ({ g with ir := 0xA } : Regs μ).settled.settled with rdata := 0 } := by
  unfold readDPACC readACC
  exact Yields.bind (Yields.when_true (setIR_yields JTAG_DPACC g))
    (Yields.bind (shiftData_yields 0 addr READ (.inl rfl)) (rdBuff_yields _))

/-! ## Transfers -/

/-- A read of DRW: the word at TAR becomes the result, and TAR moves. -/
def Regs.readDrw (g : Regs μ) : Regs μ :=
  { g with
    rdata := (TargetBus.load (wordAlign g.tar) g.mem).1
    mem := (TargetBus.load (wordAlign g.tar) g.mem).2
    tar := g.incr g.tar
    waits := settle g.waits
    bus := g.bus ++ [.read (wordAlign g.tar)] }

/-- A write of DRW: the word at TAR is replaced, and TAR moves. -/
def Regs.writeDrw (g : Regs μ) (v : Word) : Regs μ :=
  { g with
    mem := TargetBus.store (wordAlign g.tar) v g.mem
    tar := g.incr g.tar
    waits := settle g.waits
    bus := g.bus ++ [.write (wordAlign g.tar) v] }

theorem Regs.writeAP_csw {g : Regs μ} (h : g.select = 0) (v : Word) :
    g.writeAP (AP_CSW.extractLsb' 2 2) v = { g with csw := v } := by
  have haddr : g.apAddr (AP_CSW.extractLsb' 2 2) = some 0 := Regs.apAddr_bank_zero h _
  unfold Regs.writeAP
  rw [haddr, if_pos rfl]

section Programmed

variable {g : Regs μ} (hg : Programmed g)
include hg

theorem Programmed.readDrw : Programmed g.readDrw := ⟨hg.ir, hg.select, hg.csw⟩

theorem Programmed.writeDrw (v : Word) : Programmed (g.writeDrw v) := ⟨hg.ir, hg.select, hg.csw⟩

theorem Programmed.writeAP_tar (a : Word) :
    g.settled.writeAP (AP_TAR.extractLsb' 2 2) a = g.setTar a := by
  have haddr : g.settled.apAddr (AP_TAR.extractLsb' 2 2) = some 1 :=
    Regs.apAddr_bank_zero hg.select _
  unfold Regs.writeAP
  rw [haddr, if_neg (by decide), if_pos rfl]
  rfl

theorem Programmed.writeAP_drw (v : Word) :
    g.settled.writeAP (AP_DRW.extractLsb' 2 2) v = g.writeDrw v := by
  have haddr : g.settled.apAddr (AP_DRW.extractLsb' 2 2) = some 3 :=
    Regs.apAddr_bank_zero hg.select _
  unfold Regs.writeAP
  rw [haddr, if_neg (by decide), if_neg (by decide), if_pos rfl]
  exact Regs.bump_word_inc hg.csw

theorem Programmed.readAP_drw : g.settled.readAP (AP_DRW.extractLsb' 2 2) = g.readDrw := by
  have haddr : g.settled.apAddr (AP_DRW.extractLsb' 2 2) = some 3 :=
    Regs.apAddr_bank_zero hg.select _
  unfold Regs.readAP
  rw [haddr, if_neg (by decide), if_neg (by decide), if_pos rfl]
  exact Regs.bump_word_inc hg.csw

/-- With IR at APACC, setting it to APACC changes nothing. -/
theorem Programmed.setIR_yields (set_ir : Bool) :
    Yields Rest (when set_ir (setIR JTAG_APACC)) g () g := by
  cases set_ir
  · exact Yields.when_false
  · have h := Expedition.setIR_yields JTAG_APACC g
    rw [show JTAG_APACC.setWidth 4 = g.ir from hg.ir.symm] at h
    exact Yields.when_true h

theorem Programmed.transact (rnw : Bool) (a : BitVec 2) (data : Word) :
    g.settled.transact rnw a data = if rnw then g.settled.readAP a else g.settled.writeAP a data := by
  unfold Regs.transact
  rw [show g.settled.ir = 0xB from hg.ir, if_neg (by decide), if_pos rfl]

theorem Programmed.writeTar_yields (a : Word) (set_ir : Bool) :
    Yields Rest (writeAPACC a AP_TAR set_ir) g () (g.setTar a) := by
  have h := shiftData_yields a AP_TAR WRITE hg.onACC
  rw [hg.transact, hg.writeAP_tar, show (if WRITE then g.settled.readAP (AP_TAR.extractLsb' 2 2)
    else g.setTar a) = g.setTar a from rfl] at h
  exact Yields.bind (hg.setIR_yields set_ir) (Yields.bind h (Yields.pure _ _))

theorem Programmed.writeDrw_yields (v : Word) (set_ir : Bool) :
    Yields Rest (writeAPACC v AP_DRW set_ir) g () (g.writeDrw v) := by
  have h := shiftData_yields v AP_DRW WRITE hg.onACC
  rw [hg.transact, hg.writeAP_drw, show (if WRITE then g.settled.readAP (AP_DRW.extractLsb' 2 2)
    else g.writeDrw v) = g.writeDrw v from rfl] at h
  exact Yields.bind (hg.setIR_yields set_ir) (Yields.bind h (Yields.pure _ _))

/-- A pipelined read: the result of the read before comes back. -/
theorem Programmed.readDrw_yields (set_ir : Bool) :
    Yields Rest (readAPACC AP_DRW set_ir false) g g.rdata g.readDrw := by
  have h := shiftData_yields 0 AP_DRW READ hg.onACC
  rw [hg.transact, hg.readAP_drw, show (if READ then g.readDrw
    else g.settled.writeAP (AP_DRW.extractLsb' 2 2) 0) = g.readDrw from rfl] at h
  exact Yields.bind (hg.setIR_yields set_ir) (Yields.bind h (Yields.pure _ _))

/-- `rdBuff(false)` with IR still at APACC: the address of RDBUFF is that of DRW, so it fetches the
result as meant and makes one more read of DRW. -/
theorem Programmed.rdBuff_yields : Yields Rest (rdBuff false) g g.rdata g.readDrw := by
  have h := shiftData_yields 0 DP_RDBUFF READ hg.onACC
  rw [hg.transact, show DP_RDBUFF = AP_DRW from rfl, hg.readAP_drw, show (if READ then g.readDrw
    else g.settled.writeAP (AP_DRW.extractLsb' 2 2) 0) = g.readDrw from rfl] at h
  exact Yields.bind Yields.when_false h

end Programmed

/-- The opening of a memory function: bank 0, -/
theorem bank_yields (g : Regs μ) :
    Yields Rest (writeBanksel 0 true) g () { g with ir := 0xA, select := 0, waits := settle g.waits } :=
  writeACC_yields JTAG_DPACC (0 <<< 4) DP_SELECT g (.inl rfl)

/-- and CSW. -/
theorem csw_yields (g : Regs μ) :
    Yields Rest (writeAPACC CSW_WORD_INC AP_CSW true)
      { g with ir := 0xA, select := 0, waits := settle g.waits } () g.program := by
  have hcsw := writeAPACC_yields CSW_WORD_INC AP_CSW
    ({ g with ir := 0xA, select := 0, waits := settle g.waits } : Regs μ)
  have hprogram : ({ g with ir := 0xB, select := 0, waits := settle g.waits } : Regs μ).settled.writeAP
      (AP_CSW.extractLsb' 2 2) CSW_WORD_INC = g.program := Regs.writeAP_csw rfl _
  rw [hprogram] at hcsw
  exact hcsw

/-- The opening, before the rest `k`. -/
theorem opening_yields {α : Type} {k : Unit → Drv (Port μ) α} {g g' : Regs μ} {a : α}
    (hk : Yields Rest (k ()) g.program a g') :
    Yields Rest (writeBanksel 0 true >>= fun _ => writeAPACC CSW_WORD_INC AP_CSW true >>= k)
      g a g' :=
  Yields.bind (bank_yields g) (Yields.bind (csw_yields g) hk)

/-- And before a rest that fails. -/
theorem opening_fails {α : Type} {k : Unit → Drv (Port μ) α} {g : Regs μ} {e : Halt}
    (hk : Fails Rest (k ()) g.program e) :
    Fails Rest (writeBanksel 0 true >>= fun _ => writeAPACC CSW_WORD_INC AP_CSW true >>= k) g e :=
  Fails.bind (bank_yields g) (Fails.bind (csw_yields g) hk)

/-! ## Single words -/

/-- The registers after `readMemory(a)`. -/
def Regs.afterReadMemory (g : Regs μ) (a : Word) : Regs μ :=
  { (((g.program.setTar a).readDrw).settled) with ir := 0xA, rdata := 0 }

/-- **`readMemory`** returns the word at the address, from any register values. -/
theorem readMemory_yields (a : Word) (g : Regs μ) :
    Yields Rest (readMemory a) g (TargetBus.load (wordAlign a) g.mem).1 (g.afterReadMemory a) := by
  have hg := program_programmed g
  have hread : Yields Rest (readAPACC AP_DRW true true) (g.program.setTar a)
      (TargetBus.load (wordAlign a) g.mem).1 (g.afterReadMemory a) := by
    have h := shiftData_yields 0 AP_DRW READ (hg.setTar a).onACC
    rw [(hg.setTar a).transact, (hg.setTar a).readAP_drw] at h
    exact Yields.bind ((hg.setTar a).setIR_yields true) (Yields.bind h (rdBuff_yields _))
  exact opening_yields (Yields.bind (hg.writeTar_yields a true) hread)

/-- **`writeMemory`** replaces the word at the address, from any register values. -/
theorem writeMemory_yields (a v : Word) (g : Regs μ) :
    Yields Rest (writeMemory a v) g () ((g.program.setTar a).writeDrw v) := by
  have hg := program_programmed g
  exact opening_yields (Yields.bind (hg.writeTar_yields a true)
    ((hg.setTar a).writeDrw_yields v true))

/-! ## Powering up -/

/-- The registers after a debug-port register is written and read back. -/
def Regs.checkedDP (g : Regs μ) (a : BitVec 2) (data : Word) : Regs μ :=
  { (({ g with ir := 0xA } : Regs μ).settled.writeDP a data).settled.settled with rdata := 0 }

/-- One check of `PowerupDAP`, before the rest `k`. -/
theorem checkDP_yields {α : Type} {k : Unit → Drv (Port μ) α} {name : String} {data want : Word}
    {addr : Byte} {g g' : Regs μ} {r : α}
    (hwant : (({ g with ir := 0xA } : Regs μ).settled.writeDP (addr.extractLsb' 2 2) data).readDP
      (addr.extractLsb' 2 2) = want)
    (hk : Yields Rest (k ()) (g.checkedDP (addr.extractLsb' 2 2) data) r g') :
    Yields Rest (writeDPACC data addr true >>= fun _ => readDPACC addr true true >>= fun rd =>
      expect name rd want >>= k) g r g' := by
  have hir : ({ ({ g with ir := 0xA } : Regs μ).settled.writeDP (addr.extractLsb' 2 2) data with
      ir := 0xA } : Regs μ) =
      ({ g with ir := 0xA } : Regs μ).settled.writeDP (addr.extractLsb' 2 2) data := by
    unfold Regs.writeDP
    split_ifs <;> rfl
  have hread := readDPACC_yields addr
    (({ g with ir := 0xA } : Regs μ).settled.writeDP (addr.extractLsb' 2 2) data)
  rw [hir] at hread
  exact Yields.bind (writeDPACC_yields data addr g)
    (Yields.bind hread (Yields.bind (expect_yields hwant _) hk))

/-- The last check of `PowerupDAP`: the identification register sits in bank 15. -/
theorem checkIDR_yields (g : Regs μ) :
    Yields Rest (writeBanksel 0xf true >>= fun _ => readAPACC AP_IDR true true >>= fun rd =>
      expect "AP IDR" rd 0x24770011) g ()
      { g with ir := 0xA, select := 0xF0, rdata := 0, waits := settle^[3] g.waits } := by
  let h : Regs μ := { g with ir := 0xB, select := 0xF0, waits := settle g.waits }
  have hbank : Yields Rest (writeBanksel 0xf true) g ()
      { g with ir := 0xA, select := 0xF0, waits := settle g.waits } :=
    writeACC_yields JTAG_DPACC (0xF <<< 4) DP_SELECT g (.inl rfl)
  have hidr : h.settled.readAP (AP_IDR.extractLsb' 2 2) = { h.settled with rdata := IDR } := by
    have haddr : h.settled.apAddr (AP_IDR.extractLsb' 2 2) = some 63 := by
      unfold Regs.apAddr
      rw [show h.settled.select = 0xF0 from rfl]
      decide
    unfold Regs.readAP
    rw [haddr, if_neg (by decide), if_neg (by decide), if_neg (by decide), if_pos rfl]
  have hread := shiftData_yields 0 AP_IDR READ (g := h) (.inr rfl)
  rw [show h.settled.transact READ (AP_IDR.extractLsb' 2 2) 0 =
    h.settled.readAP (AP_IDR.extractLsb' 2 2) from rfl, hidr] at hread
  exact Yields.bind hbank (Yields.bind (Yields.bind (setIR_yields JTAG_APACC _)
    (Yields.bind hread (rdBuff_yields _))) (expect_yields rfl _))

/-- The registers `PowerupDAP` leaves: bank 15 of the access port is selected. -/
def Regs.poweredUp (g : Regs μ) : Regs μ :=
  { g with ir := 0xA, select := 0xF0, ctrlstat := 0x50000000, rdata := 0,
           waits := settle^[18] g.waits }

/-- **`PowerupDAP`** passes all of its own checks, from any register values. -/
theorem PowerupDAP_yields (g : Regs μ) : Yields Rest PowerupDAP g () g.poweredUp := by
  unfold PowerupDAP
  -- SELECT twice, CTRL/STAT three times
  refine checkDP_yields ((Regs.readDP_writeDP_select _ _).trans (by decide)) ?_
  refine checkDP_yields ((Regs.readDP_writeDP_select _ _).trans (by decide)) ?_
  refine checkDP_yields ((Regs.readDP_writeDP_ctrlstat _ _).trans (by decide)) ?_
  refine checkDP_yields ((Regs.readDP_writeDP_ctrlstat _ _).trans (by decide)) ?_
  refine checkDP_yields ((Regs.readDP_writeDP_ctrlstat _ _).trans (by decide)) ?_
  exact checkIDR_yields _

/-! ## Blocks -/

/-- The bus of a memory whose loads have no effect on it. -/
class PureLoad (μ : Type) [TargetBus μ] : Prop where
  load_mem : ∀ a (m : μ), (TargetBus.load a m).2 = m

instance : PureLoad (Word → Word) := ⟨fun _ _ => rfl⟩

section Loads

variable [PureLoad μ]

theorem readDrw_mem (g : Regs μ) : g.readDrw.mem = g.mem := PureLoad.load_mem _ _

theorem memReadWords_yields (size : Int) (check print : Bool) (i : Nat) (fuel : Nat) :
    ∀ (j : Nat) (acc : ReadAcc) (g : Regs μ), 1024 * (i + 1) - j = fuel → Programmed g →
      ∃ r g', Yields Rest (memReadWords size check print i j acc) g r g' ∧ Programmed g' ∧
        g'.mem = g.mem := by
  induction fuel with
  | zero =>
    intro j acc g hj hg
    rw [memReadWords, if_neg (by omega)]
    exact ⟨_, g, Yields.pure _ g, hg, rfl⟩
  | succ fuel ih =>
    intro j acc g hj hg
    rw [memReadWords]
    split
    · obtain ⟨r, g', hr, hg', hm⟩ := ih (j + 1) (acc.take check (j - 1) g.rdata) g.readDrw
        (by omega) hg.readDrw
      refine ⟨r, g', ?_, hg', hm.trans (readDrw_mem g)⟩
      exact Yields.bind (hg.readDrw_yields false) (Yields.bind (takeWord_yields _ _ _ _ _ _) hr)
    · exact ⟨_, g, Yields.pure _ g, hg, rfl⟩

theorem memReadChunks_yields (size : Int) (check print : Bool) (fuel : Nat) :
    ∀ (i : Nat) (addr : Word) (acc : ReadAcc) (g : Regs μ), (size - i * 1024).toNat ≤ fuel →
      Programmed g →
      ∃ r g', Yields Rest (memReadChunks size check print i addr acc) g r g' ∧
        g'.mem = g.mem := by
  induction fuel with
  | zero =>
    intro i addr acc g hi hg
    rw [memReadChunks, if_neg (by omega)]
    exact ⟨_, g, Yields.pure _ g, rfl⟩
  | succ fuel ih =>
    intro i addr acc g hi hg
    rw [memReadChunks]
    split
    · have hg₁ := (hg.setTar addr).readDrw
      obtain ⟨⟨j, acc₂⟩, g₂, h₂, hg₂, hm₂⟩ := memReadWords_yields size check print i _
        (1024 * i + 1) acc _ rfl hg₁
      obtain ⟨r, g', hr, hm⟩ := ih (i + 1) (addr + 1024 * 4) (acc₂.take check (j - 1) g₂.rdata)
        g₂.readDrw (by omega) hg₂.readDrw
      refine ⟨r, g', ?_, ?_⟩
      · exact Yields.bind (hg.writeTar_yields addr false)
          (Yields.bind ((hg.setTar addr).readDrw_yields false) (Yields.bind h₂
            (Yields.bind hg₂.rdBuff_yields (Yields.bind (takeWord_yields _ _ _ _ _ _) hr))))
      · rw [hm, readDrw_mem, hm₂, readDrw_mem]
        rfl
    · exact ⟨_, g, Yields.pure _ g, rfl⟩

/-- `memRead` returns and leaves the memory as it was. -/
theorem memRead_yields (baseaddr : Word) (readdata : List Word) (size : Int) (check print : Bool)
    (g : Regs μ) :
    ∃ r g', Yields Rest (memRead baseaddr readdata size check print) g r g' ∧ g'.mem = g.mem := by
  obtain ⟨r, g', hr, hm⟩ := memReadChunks_yields size check print _ 0 baseaddr ⟨readdata, 0⟩
    g.program le_rfl (program_programmed g)
  exact ⟨r, g', opening_yields hr, hm⟩

end Loads

theorem memWriteWords_yields (writedata : List Word) (size : Int) (zero : Bool) (i fuel : Nat) :
    ∀ (j : Nat) (g : Regs μ), 1024 * (i + 1) - j = fuel → Programmed g →
      ∃ g', Yields Rest (memWriteWords writedata size zero i j) g () g' ∧ Programmed g' := by
  induction fuel with
  | zero =>
    intro j g hj hg
    rw [memWriteWords, if_neg (by omega)]
    exact ⟨g, Yields.pure _ g, hg⟩
  | succ fuel ih =>
    intro j g hj hg
    rw [memWriteWords]
    split
    · obtain ⟨g', h, hg'⟩ := ih (j + 1) (g.writeDrw (if zero then 0 else writedata.getD j 0))
        (by omega) (hg.writeDrw _)
      exact ⟨g', Yields.bind (hg.writeDrw_yields _ false) h, hg'⟩
    · exact ⟨g, Yields.pure _ g, hg⟩

theorem memWriteChunks_yields (writedata : List Word) (size : Int) (zero : Bool) (fuel : Nat) :
    ∀ (i : Nat) (addr : Word) (g : Regs μ), (size - i * 1024).toNat ≤ fuel → Programmed g →
      ∃ g', Yields Rest (memWriteChunks writedata size zero i addr) g () g' := by
  induction fuel with
  | zero =>
    intro i addr g hi hg
    rw [memWriteChunks, if_neg (by omega)]
    exact ⟨g, Yields.pure _ g⟩
  | succ fuel ih =>
    intro i addr g hi hg
    rw [memWriteChunks]
    split
    · obtain ⟨g₁, h₁, hg₁⟩ := memWriteWords_yields writedata size zero i _ (1024 * i) _ rfl
        (hg.setTar addr)
      obtain ⟨g', h'⟩ := ih (i + 1) (addr + 1024 * 4) g₁ (by omega) hg₁
      exact ⟨g', Yields.bind (hg.writeTar_yields addr false) (Yields.bind h₁ h')⟩
    · exact ⟨g, Yields.pure _ g⟩

/-- `memWrite` returns. -/
theorem memWrite_yields (baseaddr : Word) (writedata : List Word) (size : Int) (zero : Bool)
    (g : Regs μ) : ∃ g', Yields Rest (memWrite baseaddr writedata size zero) g () g' := by
  obtain ⟨g', h⟩ := memWriteChunks_yields writedata size zero _ 0 baseaddr g.program le_rfl
    (program_programmed g)
  have hprint : Yields Rest (when zero (mbed_printf ("Called with " ++ hex baseaddr.toNat ++ ", " ++
      hex (BitVec.ofInt 32 size).toNat ++ "\r\n"))) g () g := by
    cases zero
    · exact Yields.when_false
    · exact mbed_printf_yields _ g
  exact ⟨g', Yields.bind hprint (opening_yields h)⟩

/-! ## Sequences of calls -/

/-- The calls the rest of the program makes on the object once it is constructed. -/
def Call.onMemory : Call → Bool
  | .readMemory _ | .writeMemory .. | .memRead .. | .memWrite .. | .PowerupDAP | .readID => true
  | _ => false

/-- What a call may answer, and do to a plain memory `m`.  The words `memWrite` stores are left
open here. -/
def Call.asPlainMemory : Call → Result → (Word → Word) → (Word → Word) → Prop
  | .readMemory a, r, m, m' => r = .word (m (wordAlign a)) ∧ m' = m
  | .writeMemory a v, r, m, m' => r = .none ∧ m' = Function.update m (wordAlign a) v
  | .memWrite .., _, _, _ => True
  | _, _, m, m' => m' = m

/-- A sequence of calls on plain memory, with their answers. -/
inductive PlainRun : (Word → Word) → List Call → List Result → (Word → Word) → Prop where
  | nil (m : Word → Word) : PlainRun m [] [] m
  | cons {c : Call} {r : Result} {m m₁ m' : Word → Word} {cs : List Call} {rs : List Result}
      (head : c.asPlainMemory r m m₁) (tail : PlainRun m₁ cs rs m') :
      PlainRun m (c :: cs) (r :: rs) m'

theorem Call.yields (c : Call) (hc : c.onMemory = true) (g : Regs (Word → Word)) :
    ∃ r g', Yields Rest c.exec g r g' ∧ c.asPlainMemory r g.mem g'.mem := by
  cases c with
  | readMemory a =>
    exact ⟨_, _, Yields.bind (readMemory_yields a g) (Yields.pure _ _), rfl, rfl⟩
  | writeMemory a v =>
    exact ⟨_, _, Yields.bind (writeMemory_yields a v g) (Yields.pure _ _), rfl, rfl⟩
  | memRead b d n c p =>
    obtain ⟨r, g', h, hm⟩ := memRead_yields b d n c p g
    exact ⟨_, g', Yields.bind h (Yields.pure _ _), hm⟩
  | memWrite b d n z =>
    obtain ⟨g', h⟩ := memWrite_yields b d n z g
    exact ⟨_, g', Yields.bind h (Yields.pure _ _), trivial⟩
  | PowerupDAP => exact ⟨_, _, Yields.bind (PowerupDAP_yields g) (Yields.pure _ _), rfl⟩
  | readID => exact ⟨_, _, Yields.bind (readID_yields g) (Yields.pure _ _), rfl⟩
  | _ => cases hc

/-- **The memory calls are plain memory.**  From any register values, for every sequence of the
calls and every pattern of WAIT answers: every call returns, `writeMemory(a, v)` sets the word at
`a` and no other, and `readMemory(a)` returns the current word at `a` and changes none. -/
theorem memory_calls_as_plain_memory {w : World (Port (Word → Word))} {g : Regs (Word → Word)}
    (hw : Rest w g) (cs : List Call) (hcs : ∀ c ∈ cs, c.onMemory = true) :
    ∃ rs u g', execAll cs w = (.ok rs, u) ∧ Rest u g' ∧ PlainRun g.mem cs rs g'.mem := by
  induction cs generalizing w g with
  | nil => exact ⟨[], w, g, rfl, hw, .nil _⟩
  | cons c cs ih =>
    obtain ⟨r, g₁, hc, hplain⟩ := c.yields (hcs c List.mem_cons_self) g
    obtain ⟨u₁, hu₁, hw₁⟩ := hc w hw
    obtain ⟨rs, u, g', hu, hu', hrun⟩ := ih hw₁ fun c' h => hcs c' (List.mem_cons_of_mem _ h)
    refine ⟨r :: rs, u, g', ?_, hu', .cons hplain hrun⟩
    rw [execAll, run_bind_ok hu₁, run_bind_ok hu]
    rfl

/-- A port between two scans with nothing as the memory functions want it: IR at IDCODE, bank 15 of
another access port, a read result pending, and two WAIT answers to come. -/
def strayPort : Port (Word → Word) :=
  { irShift := [], drShift := [], scanWait := false
    regs :=
      { ir := 0xE, select := 0x120000F0, ctrlstat := 0, csw := 0, tar := 0x44000008
        rdata := 0xDEADBEEF, mem := id, waits := [true, false, true], incr := (· + 4)
        bus := [] } }

theorem memory_calls_stray_port :
    ∃ rs u g', execAll [.PowerupDAP, .writeMemory 0x20000000 7, .readMemory 0x20000000]
        (World.powerOn false false true .runTestIdle strayPort 'n' 4) = (.ok rs, u) ∧ Rest u g' ∧
      PlainRun id [.PowerupDAP, .writeMemory 0x20000000 7, .readMemory 0x20000000] rs g'.mem :=
  memory_calls_as_plain_memory (g := strayPort.regs) ⟨rfl, rfl, rfl, rfl, rfl, by decide⟩ _
    (by decide)

end Expedition
