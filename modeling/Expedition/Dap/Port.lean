import Expedition.Jtag.Shift

/-!
# The ARM debug port behind the TAP controller

The target of the driver: a JTAG debug port (JTAG-DP) with one memory access port (MEM-AP), as
far as the driver uses it.

* A 4-bit instruction register that captures `0001` and selects the data register: DPACC and
  APACC are 35 bits (three of acknowledge or request, 32 of data), IDCODE is 32, the rest bypass.
* At Capture-DR of DPACC or APACC the port answers WAIT (`001`) or OK/FAULT (`010`) with the result
  of the read before; a scan answered WAIT has no effect at Update-DR.  When it answers WAIT is
  the finite pattern `waits`.
* Update-DR carries out the request: SELECT, CTRL/STAT and RDBUFF of the debug port, and CSW, TAR,
  DRW and IDR of the access port in the bank SELECT names.  A DRW access transfers the word at
  TAR and then moves TAR by `incr` if CSW asks for single increments.

The memory behind the access port is any `TargetBus`; plain memory is the instance for functions
from addresses to words.  There are no bus faults.
-/

namespace Expedition

open Bits

/-- The memory system of the target chip. -/
class TargetBus (μ : Type) where
  load : Word → μ → Word × μ
  store : Word → Word → μ → μ

/-- Plain word-addressed memory. -/
instance : TargetBus (Word → Word) where
  load a m := (m a, m)
  store a v m := Function.update m a v

/-- A transfer the access port made on the target's bus. -/
inductive BusAccess where
  | read (address : Word)
  | write (address value : Word)
  deriving DecidableEq, Repr

/-- The registers of the port that outlive a scan, and the memory. -/
structure Regs (μ : Type) where
  ir : BitVec 4
  select : Word
  ctrlstat : Word
  csw : Word
  tar : Word
  /-- The result of the last read, captured by the next scan. -/
  rdata : Word
  mem : μ
  /-- The answers to come: `true` is WAIT; after the list the port is always ready. -/
  waits : List Bool
  /-- The auto-increment of TAR. -/
  incr : Word → Word
  /-- The bus transfers so far, oldest first. -/
  bus : List BusAccess

/-- A word transfer ignores the two low address bits. -/
def wordAlign (a : Word) : Word := a &&& 0xFFFFFFFC

def IDCODE : Word := 0x4ba00477
def IDR : Word := 0x24770011

namespace Regs

variable {μ : Type}

/-- The debug port's registers as a read returns them; RDBUFF reads as zero. -/
def readDP (g : Regs μ) (a : BitVec 2) : Word :=
  if a = 1 then g.ctrlstat ||| (g.ctrlstat <<< 1)
  else if a = 2 then g.select
  else 0

/-- Of CTRL/STAT the two power-up requests are kept (each acknowledged at once, one bit up); of
SELECT the access port and the bank. -/
def writeDP (g : Regs μ) (a : BitVec 2) (data : Word) : Regs μ :=
  if a = 1 then { g with ctrlstat := data &&& 0x50000000 }
  else if a = 2 then { g with select := data &&& 0xFF0000F0 }
  else g

/-- The register address inside the access port: bank and two address bits; none if SELECT names
an access port that is not there. -/
def apAddr (g : Regs μ) (a : BitVec 2) : Option (BitVec 6) :=
  if g.select.extractLsb' 24 8 = 0 then some (g.select.extractLsb' 4 4 ++ a) else none

/-- TAR moves after a DRW access if CSW asks for single increments. -/
def bump (g : Regs μ) : Regs μ :=
  if g.csw.extractLsb' 4 2 = 1 then { g with tar := g.incr g.tar } else g

section Bus

variable [TargetBus μ]

def readAP (g : Regs μ) (a : BitVec 2) : Regs μ :=
  if g.apAddr a = some 0 then { g with rdata := g.csw }
  else if g.apAddr a = some 1 then { g with rdata := g.tar }
  else if g.apAddr a = some 3 then
    let r := TargetBus.load (wordAlign g.tar) g.mem
    bump { g with rdata := r.1, mem := r.2, bus := g.bus ++ [.read (wordAlign g.tar)] }
  else if g.apAddr a = some 63 then { g with rdata := IDR }
  else { g with rdata := 0 }

def writeAP (g : Regs μ) (a : BitVec 2) (data : Word) : Regs μ :=
  if g.apAddr a = some 0 then { g with csw := data }
  else if g.apAddr a = some 1 then { g with tar := data }
  else if g.apAddr a = some 3 then
    bump { g with mem := TargetBus.store (wordAlign g.tar) data g.mem,
                  bus := g.bus ++ [.write (wordAlign g.tar) data] }
  else g

/-- The request of a scan that was not answered WAIT. -/
def transact (g : Regs μ) (rnw : Bool) (a : BitVec 2) (data : Word) : Regs μ :=
  if g.ir = 0xA then if rnw then { g with rdata := g.readDP a } else g.writeDP a data
  else if g.ir = 0xB then if rnw then g.readAP a else g.writeAP a data
  else g

end Bus

end Regs

/-- The port as a device in the scan path. -/
structure Port (μ : Type) where
  irShift : List Bool
  drShift : List Bool
  /-- The scan under way was answered WAIT. -/
  scanWait : Bool
  regs : Regs μ

namespace Port

variable {μ : Type}

def withDR (r : List Bool) (p : Port μ) : Port μ := { p with drShift := r }

def withIR (r : List Bool) (p : Port μ) : Port μ := { p with irShift := r }

@[simp] theorem withDR_regs (r : List Bool) (p : Port μ) : (p.withDR r).regs = p.regs := rfl
@[simp] theorem withDR_drShift (r : List Bool) (p : Port μ) : (p.withDR r).drShift = r := rfl
@[simp] theorem withDR_scanWait (r : List Bool) (p : Port μ) :
    (p.withDR r).scanWait = p.scanWait := rfl
@[simp] theorem withIR_regs (r : List Bool) (p : Port μ) : (p.withIR r).regs = p.regs := rfl
@[simp] theorem withIR_irShift (r : List Bool) (p : Port μ) : (p.withIR r).irShift = r := rfl

/-- DPACC or APACC is the current instruction. -/
def onACC (g : Regs μ) : Prop := g.ir = 0xA ∨ g.ir = 0xB

instance (g : Regs μ) : Decidable (onACC g) := inferInstanceAs (Decidable (_ ∨ _))

/-- Capture-DR. -/
def captureDR (p : Port μ) : Port μ :=
  if onACC p.regs then
    match p.regs.waits with
    | true :: rest =>
      { p with drShift := true :: false :: false :: toBits 32 0, scanWait := true,
               regs := { p.regs with waits := rest } }
    | _ =>
      { p with drShift := false :: true :: false :: toBits 32 p.regs.rdata.toNat, scanWait := false,
               regs := { p.regs with waits := p.regs.waits.tail } }
  else if p.regs.ir = 0xE then { p with drShift := toBits 32 IDCODE.toNat }
  else { p with drShift := [false] }

/-- Update-DR. -/
def updateDR [TargetBus μ] (p : Port μ) : Port μ :=
  if onACC p.regs ∧ p.scanWait = false then
    let rnw := p.drShift.headD false
    let a : BitVec 2 := BitVec.ofNat 2 (ofBits ((p.drShift.drop 1).take 2))
    let data : Word := BitVec.ofNat 32 (ofBits (p.drShift.drop 3))
    { p with regs := p.regs.transact rnw a data }
  else p

instance [TargetBus μ] : JtagDevice (Port μ) where
  tdo t p := (match t with
    | .shiftIR => p.irShift.headD false
    | .shiftDR => p.drShift.headD false
    | _ => false, p)
  rise t tdi p := match t with
    | .captureIR => { p with irShift := [true, false, false, false] }
    | .shiftIR => { p with irShift := p.irShift.tail ++ [tdi] }
    | .captureDR => p.captureDR
    | .shiftDR => { p with drShift := p.drShift.tail ++ [tdi] }
    | _ => p
  fall t p := match t with
    | .testLogicReset => { p with regs := { p.regs with ir := 0xE } }
    | .updateIR => { p with regs := { p.regs with ir := BitVec.ofNat 4 (ofBits p.irShift) } }
    | .updateDR => p.updateDR
    | _ => p

variable [TargetBus μ]

theorem shifts_dr : Shifts (σ := Port μ) .shiftDR Port.drShift Port.withDR :=
  ⟨rfl, fun _ => rfl, fun _ _ => rfl, fun _ => rfl, fun _ _ => rfl, fun _ _ _ => rfl, fun _ => rfl⟩

theorem shifts_ir : Shifts (σ := Port μ) .shiftIR Port.irShift Port.withIR :=
  ⟨rfl, fun _ => rfl, fun _ _ => rfl, fun _ => rfl, fun _ _ => rfl, fun _ _ _ => rfl, fun _ => rfl⟩

end Port

end Expedition
