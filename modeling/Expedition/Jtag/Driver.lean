import Expedition.Jtag.World

/-!
# The `JTAG` class of `jtag.cpp`

Every function of the class, bottom up and under its own name: the pin toggles, the bit and data
shifting, the state manipulation, the debug-port and access-port registers, and the memory
functions.  `loadProgram` is in `Expedition.Load.Program`, with the file functions it calls.

C++ default arguments are written out at each call.  `panic` prints, powers the chip down and
exits; here it is the outcome `Halt.panic` with the message.
-/

namespace Expedition

open Exec

/-! ## Register addresses and instructions (`jtag.h`) -/

def READ : Bool := true
def WRITE : Bool := false

def DP_CTRLSTAT : Byte := 0x4
def DP_SELECT : Byte := 0x8
def DP_RDBUFF : Byte := 0xC

def AP_CSW : Byte := 0x0
def AP_TAR : Byte := 0x4
def AP_SELECT : Byte := 0x8
def AP_DRW : Byte := 0xC
def AP_IDR : Byte := 0xFC

def JTAG_DPACC : Byte := 0xA
def JTAG_APACC : Byte := 0xB
def JTAG_IDCODE : Byte := 0xE

variable {σ : Type}

/-! ## Terminal output -/

/-- `%x`. -/
def hex (n : Nat) : String := String.ofList (Nat.toDigits 16 n)

/-- `mbed_printf` of a formatted text: `vsnprintf` keeps `BUF_SIZE - 1 = 119` characters. -/
def mbed_printf (text : String) : Drv σ Unit :=
  update fun w => { w with console := w.console ++ [String.ofList (text.toList.take 119)] }

/-- `panic`: it does not return. -/
def panic {α : Type} (message : String) : Drv σ α := fail (.panic message)

variable [JtagDevice σ]

/-! ## Toggle functions -/

def DataLow : Drv σ Unit := update fun w => { w with tdi := false }

def DataHigh : Drv σ Unit := update fun w => { w with tdi := true }

def clockLow : Drv σ Unit := update (World.setTck false)

def clockHigh : Drv σ Unit := update (World.setTck true)

/-- The loop of `clockTicks`. -/
def clockLoop : Nat → Drv σ Unit
  | 0 => pure ()
  | c + 1 => do
    clockLow
    clockHigh
    clockLoop c

def clockTicks (c : Nat) : Drv σ Unit := do
  clockLow
  clockLoop c
  clockLow

def TMSHigh : Drv σ Unit := update fun w => { w with tms := true }

def TMSLow : Drv σ Unit := update fun w => { w with tms := false }

/-! ## State manipulation -/

def setStateField (c : Char) : Drv σ Unit := update fun w => { w with state := c }

def reset : Drv σ Unit := do
  TMSHigh
  clockTicks 10
  TMSLow
  setStateField 'r'

/-- Moves to the specified state from IDLE (reset from anywhere). -/
def setState (c : Char) : Drv σ Unit :=
  if c = 'r' then reset
  else if c = 'd' then do
    TMSHigh
    clockTicks 1
    TMSLow
    clockTicks 2
    setStateField 'd'
  else if c = 'i' then do
    TMSHigh
    clockTicks 2
    TMSLow
    clockTicks 2
    setStateField 'i'
  else pure ()

/-- Leave from current state to idle state. -/
def leaveState : Drv σ Unit := do
  let w ← read
  if w.state = 'r' then do
    TMSLow
    clockTicks 1
    setStateField 'n'
  else if w.state = 'i' then do
    TMSHigh
    clockTicks 2
    TMSLow
    clockTicks 1
    setStateField 'n'
  else if w.state = 'd' then do
    TMSHigh
    clockTicks 2
    TMSLow
    clockTicks 1
    setStateField 'n'
  else pure ()

/-! ## Data shifting -/

/-- Sample TDO. -/
def readTDO : Drv σ Bool := fun w =>
  (.ok (JtagDevice.tdo w.tap w.dev).1, { w with dev := (JtagDevice.tdo w.tap w.dev).2 })

/-- Record the clock that follows in `shiftLog`. -/
def logShift : Drv σ Unit :=
  update fun w => { w with shiftLog := w.shiftLog ++ [(w.tap, w.state)] }

/-- The loop of `shiftBits`: `n` bits still to shift, `i` already shifted, `c` collected. -/
def shiftLoop : Nat → Nat → Word → Word → Drv σ Word
  | 0, _, _, c => pure c
  | n + 1, i, data, c => do
    let tdo ← readTDO
    let c := if tdo then c + ((1 : Word) <<< i) else c
    logShift
    clockTicks 1
    (if data &&& 1 = 0 then DataLow else DataHigh)
    shiftLoop n (i + 1) (data >>> 1) c

def shiftBits (data : Word) (n : Nat) : Drv σ Word := do
  clockLow
  shiftLoop n 0 data 0

/-- A WAIT acknowledge: the indicator LED changes. -/
def noteWait : Drv σ Unit :=
  update fun w => { w with waitIndicator := !w.waitIndicator, waits := w.waits + 1 }

/-- The `while(gotwait)` loop of `shiftData`, up to the scan that is not answered WAIT. -/
def ackLoop (addr : Byte) (rw : Bool) : Nat → Drv σ Unit
  | 0 => fail .starved
  | fuel + 1 => do
    setState 'd'
    -- First 3 bits are either OK/FAULT 010, or WAIT 001
    let ok0 ← shiftBits (if rw then 1 else 0) 1
    let ok1 ← shiftBits (addr.setWidth 32 >>> 2) 2
    let okstat := ok0 ||| (ok1 <<< 1)
    if okstat = 1 then do
      noteWait
      leaveState
      ackLoop addr rw fuel
    else if okstat = 2 then pure ()
    else do
      leaveState
      panic "invalid OK Stat\r\n"

def shiftData (data : Word) (addr : Byte) (rw : Bool) : Drv σ Word := do
  let w ← read
  ackLoop addr rw w.patience
  let retdata ← shiftBits data 32
  leaveState
  pure retdata

/-- Set the instruction register. -/
def setIR (A : Byte) : Drv σ Unit := do
  setState 'i'
  let bits ← shiftBits (A.setWidth 32) 4
  let one : Byte := bits.setWidth 8
  if one ≠ 1 then
    panic ("ERROR: JTAG IR. Got " ++ hex one.toNat ++ " instead of 1\r\n")
  else leaveState

def readID : Drv σ Word := do
  setIR JTAG_IDCODE
  setState 'd'
  let id ← shiftBits 0 32
  leaveState
  pure id

/-- `JTAG::JTAG()`. -/
def construct : Drv σ Unit := do
  TMSLow
  clockLow
  DataLow
  reset
  leaveState

/-! ## DP/AP config -/

def rdBuff (set_ir : Bool) : Drv σ Word := do
  when set_ir (setIR JTAG_DPACC)
  shiftData 0 DP_RDBUFF READ

/-- `readDPACC` and `readAPACC` are this body at their own instruction. -/
def readACC (ir addr : Byte) (set_ir rdthis : Bool) : Drv σ Word := do
  when set_ir (setIR ir)
  let retdata ← shiftData 0 addr READ
  if rdthis then rdBuff true else pure retdata

def readDPACC (addr : Byte) (set_ir rdthis : Bool) : Drv σ Word :=
  readACC JTAG_DPACC addr set_ir rdthis

def readAPACC (addr : Byte) (set_ir rdthis : Bool) : Drv σ Word :=
  readACC JTAG_APACC addr set_ir rdthis

/-- `writeAPACC` and `writeDPACC` are this body at their own instruction. -/
def writeACC (ir : Byte) (data : Word) (addr : Byte) (set_ir : Bool) : Drv σ Unit := do
  when set_ir (setIR ir)
  let _ ← shiftData data addr WRITE
  pure ()

def writeAPACC (data : Word) (addr : Byte) (set_ir : Bool) : Drv σ Unit :=
  writeACC JTAG_APACC data addr set_ir

def writeDPACC (data : Word) (addr : Byte) (set_ir : Bool) : Drv σ Unit :=
  writeACC JTAG_DPACC data addr set_ir

def writeBanksel (banksel : Word) (set_ir : Bool) : Drv σ Unit :=
  writeACC JTAG_DPACC (banksel <<< 4) DP_SELECT set_ir

def DAP_enable : Drv σ Unit := do
  setState 'r'
  leaveState
  writeDPACC 0x50000000 DP_CTRLSTAT true
  writeDPACC 0x00000000 AP_SELECT true
  writeAPACC 0x23000042 AP_CSW true

/-- One of the checks of `PowerupDAP`: `panic` with the register's name unless it reads `want`. -/
def expect (name : String) (rd want : Word) : Drv σ Unit :=
  if rd ≠ want then panic (name ++ " " ++ hex rd.toNat) else pure ()

def PowerupDAP : Drv σ Unit := do
  writeDPACC 0x12345678 DP_SELECT true
  expect "DP SELECT" (← readDPACC DP_SELECT true true) 0x12000070
  writeDPACC 0xedcba987 DP_SELECT true
  expect "DP SELECT" (← readDPACC DP_SELECT true true) 0xed000080
  writeDPACC 0x10000000 DP_CTRLSTAT true
  expect "DP CTRL" (← readDPACC DP_CTRLSTAT true true) 0x30000000
  writeDPACC 0x40000000 DP_CTRLSTAT true
  expect "DP CTRL" (← readDPACC DP_CTRLSTAT true true) 0xc0000000
  writeDPACC 0x50000000 DP_CTRLSTAT true
  expect "DP CTRL" (← readDPACC DP_CTRLSTAT true true) 0xf0000000
  writeBanksel 0xf true
  expect "AP IDR" (← readAPACC AP_IDR true true) 0x24770011

/-! ## Memory -/

/-- The control word every memory function programs: word transfers, single auto-increment. -/
def CSW_WORD_INC : Word := 0x23000052

def readMemory (address : Word) : Drv σ Word := do
  writeBanksel 0 true
  writeAPACC CSW_WORD_INC AP_CSW true
  writeAPACC address AP_TAR true
  readAPACC AP_DRW true true

def writeMemory (address value : Word) : Drv σ Unit := do
  writeBanksel 0 true
  writeAPACC CSW_WORD_INC AP_CSW true
  writeAPACC address AP_TAR true
  writeAPACC value AP_DRW true

/-- What `memRead` carries from word to word: the caller's array and the mismatch count. -/
structure ReadAcc where
  readdata : List Word
  mismatch : Word

/-- `check` is set and the array's word of index `k` is not `word`. -/
def ReadAcc.differs (check : Bool) (k : Nat) (word : Word) (acc : ReadAcc) : Bool :=
  check && decide (acc.readdata.getD k 0 ≠ word)

/-- `memRead`'s handling of the word of index `k`: count a mismatch, then store it. -/
def ReadAcc.take (check : Bool) (k : Nat) (word : Word) (acc : ReadAcc) : ReadAcc :=
  { readdata := acc.readdata.set k word
    mismatch := if acc.differs check k word then acc.mismatch + 1 else acc.mismatch }

def takeWord (check print : Bool) (k : Nat) (word : Word) (acc : ReadAcc) : Drv σ ReadAcc := do
  when (acc.differs check k word && print)
    (mbed_printf ("Mismatch line " ++ hex k ++ ", was " ++ hex word.toNat ++ ", expected " ++
      hex (acc.readdata.getD k 0).toNat ++ "\r\n"))
  pure (acc.take check k word)

/-- The `for` loop of `memRead`: the pipelined reads of chunk `i` from index `j` on; returns the
index reached. -/
def memReadWords (size : Int) (check print : Bool) (i j : Nat) (acc : ReadAcc) :
    Drv σ (Nat × ReadAcc) :=
  if j < 1024 * (i + 1) ∧ (j : Int) < size then do
    let word ← readAPACC AP_DRW false false
    let acc ← takeWord check print (j - 1) word acc
    memReadWords size check print i (j + 1) acc
  else pure (j, acc)
termination_by 1024 * (i + 1) - j

/-- The `while` loop of `memRead` from chunk `i` on. -/
def memReadChunks (size : Int) (check print : Bool) (i : Nat) (addr : Word) (acc : ReadAcc) :
    Drv σ ReadAcc :=
  if (i : Int) * 1024 < size then do
    writeAPACC addr AP_TAR false
    let _ ← readAPACC AP_DRW false false
    let (j, acc) ← memReadWords size check print i (1024 * i + 1) acc
    let word ← rdBuff false
    let acc ← takeWord check print (j - 1) word acc
    memReadChunks size check print (i + 1) (addr + 1024 * 4) acc
  else pure acc
termination_by (size - i * 1024).toNat

/-- `memRead`: the array as it ends up, and the number of mismatches. -/
def memRead (baseaddr : Word) (readdata : List Word) (size : Int) (check print : Bool) :
    Drv σ ReadAcc := do
  writeBanksel 0 true
  writeAPACC CSW_WORD_INC AP_CSW true
  memReadChunks size check print 0 baseaddr ⟨readdata, 0⟩

/-- The `for` loop of `memWrite` in chunk `i` from index `j` on. -/
def memWriteWords (writedata : List Word) (size : Int) (zero : Bool) (i j : Nat) : Drv σ Unit :=
  if j < 1024 * (i + 1) ∧ (j : Int) < size then do
    writeAPACC (if zero then 0 else writedata.getD j 0) AP_DRW false
    memWriteWords writedata size zero i (j + 1)
  else pure ()
termination_by 1024 * (i + 1) - j

/-- The `while` loop of `memWrite` from chunk `i` on. -/
def memWriteChunks (writedata : List Word) (size : Int) (zero : Bool) (i : Nat) (addr : Word) :
    Drv σ Unit :=
  if (i : Int) * 1024 < size then do
    writeAPACC addr AP_TAR false
    memWriteWords writedata size zero i (1024 * i)
    memWriteChunks writedata size zero (i + 1) (addr + 1024 * 4)
  else pure ()
termination_by (size - i * 1024).toNat

def memWrite (baseaddr : Word) (writedata : List Word) (size : Int) (zero : Bool) :
    Drv σ Unit := do
  when zero (mbed_printf ("Called with " ++ hex baseaddr.toNat ++ ", " ++
    hex (BitVec.ofInt 32 size).toNat ++ "\r\n"))
  writeBanksel 0 true
  writeAPACC CSW_WORD_INC AP_CSW true
  memWriteChunks writedata size zero 0 baseaddr

end Expedition
