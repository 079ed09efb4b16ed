import Expedition.Jtag.Driver
import Expedition.Lib.Stdio

/-!
# `JTAG::loadProgram`

The load of `/local/system.hex` into the target's instruction memory, with its two passes over the
file as the source has them.

The file is the text `fopen` finds, or none.  `unsigned int d;` is declared without a value inside
each loop, so where `fscanf` stores nothing `d` is indeterminate: it is `junk k` at the `k`-th scan,
for any `junk`.  The loops test `feof` only, and a character `fscanf` refuses is refused again, so
they need not end; running past the model's bound is the outcome `Halt.looping`.
-/

namespace Expedition

open Exec Stdio

/-! ## Constants (`jtag.h`, `mmap.h`) -/

def DHCSR_ADDR : Word := 0xE000EDF0
def DHCSR_DBGKEY : Word := 0xA05F0000
def DHCSR_C_HALT : Word := 0x2
def DHCSR_C_DEBUGEN : Word := 0x1
/-- The value `loadProgram` writes to DHCSR. -/
def haltRequest : Word := DHCSR_DBGKEY ||| DHCSR_C_HALT ||| DHCSR_C_DEBUGEN
def set_imem : Word := 0x44000008

variable {σ : Type}

/-- `pc.printf`: unlike `mbed_printf` it goes to the port directly. -/
def pc_printf (text : String) : Drv σ Unit :=
  update fun w => { w with console := w.console ++ [text] }

variable [JtagDevice σ]

/-! ## The load -/

/-- The inner `for` loop of the load: `left` rounds remain to 1024, `k` scans are done. -/
def loadWords (junk : Nat → Word) : Nat → Nat → Stream → Drv σ (Nat × Stream)
  | 0, k, fp => pure (k, fp)
  | left + 1, k, fp =>
    if feof fp then pure (k, fp)
    else do
      let (d, fp) := scanHex fp
      writeAPACC (d.getD (junk k)) AP_DRW false
      loadWords junk left (k + 1) fp

/-- The `while` loop of the load. -/
def loadChunks (junk : Nat → Word) : Nat → Word → Nat → Stream → Drv σ (Nat × Stream)
  | fuel, addr, k, fp =>
    if feof fp then pure (k, fp)
    else match fuel with
      | 0 => fail .looping
      | fuel + 1 => do
        writeAPACC addr AP_TAR false
        let (k, fp) ← loadWords junk 1024 k fp
        loadChunks junk fuel (addr + 1024 * 4) k fp

/-! ## The check -/

/-- What the check carries along: the scans done, the stream and the count of mismatches. -/
structure CheckAcc where
  scans : Nat
  fp : Stream
  mismatch : Word

/-- Compare a word read back with the next word of the file. -/
def checkWord (junk : Nat → Word) (j : Nat) (word : Word) (c : CheckAcc) : Drv σ CheckAcc := do
  let (v, fp) := scanHex c.fp
  let d := v.getD (junk c.scans)
  when (d ≠ word) (mbed_printf ("Mismatch line " ++ hex (j - 1) ++ ", was " ++ hex word.toNat ++
    ", expected " ++ hex d.toNat ++ "\r\n"))
  pure ⟨c.scans + 1, fp, if d ≠ word then c.mismatch + 1 else c.mismatch⟩

/-- The inner `for` loop of the check: `left` rounds remain to 1024; returns the index reached. -/
def checkWords (junk : Nat → Word) : Nat → Nat → CheckAcc → Drv σ (Nat × CheckAcc)
  | 0, j, c => pure (j, c)
  | left + 1, j, c =>
    if feof c.fp then pure (j, c)
    else do
      let word ← readAPACC AP_DRW false false
      let c ← checkWord junk j word c
      checkWords junk left (j + 1) c

/-- The `while` loop of the check. -/
def checkChunks (junk : Nat → Word) : Nat → Word → CheckAcc → Drv σ CheckAcc
  | fuel, addr, c =>
    if feof c.fp then pure c
    else match fuel with
      | 0 => fail .looping
      | fuel + 1 => do
        writeAPACC addr AP_TAR false
        let _ ← readAPACC AP_DRW false false
        let (j, c) ← checkWords junk 1023 1 c
        let c ← (if feof c.fp then pure c
          else do
            let word ← rdBuff false
            checkWord junk j word c)
        checkChunks junk fuel (addr + 1024 * 4) c

/-! ## The whole -/

/-- The part of `loadProgram` after `fopen`. -/
def loadFile (fuel : Nat) (text : List Char) (junk : Nat → Word) : Drv σ Word := do
  writeBanksel 0 true
  writeAPACC CSW_WORD_INC AP_CSW true
  let (k, fp) ← loadChunks junk fuel 0x10000000 0 (Stream.ofText text)
  writeBanksel 0 true
  writeAPACC CSW_WORD_INC AP_CSW true
  let c ← checkChunks junk fuel 0x10000000 ⟨k, fp, 0⟩
  if c.mismatch ≠ 0 then panic "Mem Load Failed"
  else do
    writeMemory set_imem 1
    pure 0

/-- The value read from DHCSR says that the core is halted under the debugger. -/
def coreHalted (value : Word) : Bool :=
  value &&& DHCSR_C_HALT ≠ 0 && value &&& DHCSR_C_DEBUGEN ≠ 0

def loadProgram (fuel : Nat) (file : Option (List Char)) (junk : Nat → Word) : Drv σ Word := do
  PowerupDAP
  writeMemory DHCSR_ADDR haltRequest
  let value ← readMemory DHCSR_ADDR
  if !coreHalted value then panic "cannot halt the core, check DHCSR...\r\n"
  else do
    pc_printf "loading program\r\n"
    pc_printf "Program open\r\n"
    match file with
    | none => panic "Error in open /local/system.hex\r\n"
    | some text => loadFile fuel text junk

end Expedition
