import Expedition.Host.Discipline
import Expedition.Load.Program

/-!
# All the threads

`main` from `enable_GPIO_intr` on, with `loadProgram` written out in its scans and prints,
`debug_loop` with `debug_print`, and the interrupt handler; and the whole program as one code `Pc.code`
over the program counters of all its contexts.

* `MainPc`, `DebugPc`, `HandlerPc` — their code.  `mbed_printf` is three steps: lock, print, unlock.
* `pc_guards` — the sections of the four mutexes in the whole program.
* `Pc.holds_JTAG_of_onPort` — who uses the port without the mutex.
-/

namespace Expedition

open Function Stdio

/-! ## `main` -/

def intclk_source : Word := 0x44100010
def extclk_source : Word := 0x4410001c
def ext_div_by : Word := 0x44100018

/-- What `main` finds: the file, the values the uninitialised `d` of `loadProgram` happens to have,
and what happens to be in its array `line`. -/
structure Boot where
  file : Option (List Char)
  junk : Nat → Word
  line : List Byte

/-- Nothing there, and no file. -/
def Boot.empty : Boot := ⟨none, fun _ => 0, []⟩

/-- The points of `main` and `loadProgram` at which no mutex is held. -/
inductive MainPoint where
  | reset
  | powerup
  | intclk
  | extclk
  | extdiv
  | powerCore
  | loadPowerup
  | halt
  | readHalted
  | loadBegin
  | loadOpen
  | loadBank (fp : Stream)
  | loadTar (addr : Word) (k : Nat) (fp : Stream)
  /-- In the `for` loop of the load, with `left` rounds after this one. -/
  | loadWord (left : Nat) (addr : Word) (k : Nat) (fp : Stream)
  | checkBank (c : CheckAcc)
  | checkTar (addr : Word) (c : CheckAcc)
  | checkFirst (addr : Word) (c : CheckAcc)
  /-- In the `for` loop of the check, at its index `j`. -/
  | checkRead (left j : Nat) (addr : Word) (c : CheckAcc)
  | checkLast (j : Nat) (addr : Word) (c : CheckAcc)
  | setImem
  | resetCore
  /-- In `mbed_scanf`, at its lock; `line` is what the array holds. -/
  | scanLock (line : List Byte)
  | signalDebug (line : List Byte)
  /-- After the command loop: the threads still to terminate. -/
  | shutdown (l : List Thread)
  | powerDown
  | spin
  | panicked (message : String)

inductive MainPc where
  | run (p : MainPoint)
  | printLock (text : String) (next : MainPoint)
  | print (text : String) (next : MainPoint)
  | printUnlock (next : MainPoint)
  | scanRead (line : List Byte)
  | scanUnlock (line : List Byte)

/-- `isspace` on bytes. -/
def isBlank (b : Byte) : Bool := b = 32 || (9 ≤ b && b ≤ 13)

/-- `vsscanf` with `%s`: the first word of the text; where there is none the array keeps its contents. -/
def scanToken (line text : List Byte) : List Byte :=
  let token := (text.dropWhile isBlank).takeWhile fun b => !isBlank b
  if token = [] then line else token

/-- `"quit"`. -/
def quitLine : List Byte := [0x71, 0x75, 0x69, 0x74]

namespace MainPoint

/-- The `while` test of the load. -/
def loadRound (addr : Word) (k : Nat) (fp : Stream) : MainPoint :=
  if feof fp then checkBank ⟨k, fp, 0⟩ else loadTar addr k fp

/-- The `for` test of the load, with `left` rounds to 1024. -/
def loadNext (left : Nat) (addr : Word) (k : Nat) (fp : Stream) : MainPoint :=
  match left with
  | 0 => loadRound (addr + 1024 * 4) k fp
  | left + 1 => if feof fp then loadRound (addr + 1024 * 4) k fp else loadWord left addr k fp

/-- The `while` test of the check, and what follows the loop. -/
def checkRound (addr : Word) (c : CheckAcc) : MainPoint :=
  if feof c.fp then (if c.mismatch ≠ 0 then panicked "Mem Load Failed" else setImem)
  else checkTar addr c

/-- After the `for` loop of the check, which ended at index `j`. -/
def checkEnd (j : Nat) (addr : Word) (c : CheckAcc) : MainPoint :=
  if feof c.fp then checkRound (addr + 1024 * 4) c else checkLast j addr c

/-- The `for` test of the check. -/
def checkNext (left j : Nat) (addr : Word) (c : CheckAcc) : MainPoint :=
  match left with
  | 0 => checkEnd j addr c
  | left + 1 => if feof c.fp then checkEnd j addr c else checkRead left j addr c

end MainPoint

namespace MainPc

/-- Compare a word read back with the next word of the file, and go on. -/
def compared (junk : Nat → Word) (j : Nat) (word : Word) (c : CheckAcc)
    (next : CheckAcc → MainPoint) : MainPc :=
  let (v, fp) := scanHex c.fp
  let d := v.getD (junk c.scans)
  if d ≠ word then
    printLock ("Mismatch line " ++ hex (j - 1) ++ ", was " ++ hex word.toNat ++ ", expected " ++
      hex d.toNat ++ "\r\n") (next ⟨c.scans + 1, fp, c.mismatch + 1⟩)
  else run (next ⟨c.scans + 1, fp, c.mismatch⟩)

/-- The threads `main` terminates, in its order. -/
def workers : List Thread := [.dispatch, .work .send, .work .recv, .work .pow, .debug]

/-- The `if` around `loadProgram`. -/
def loaded (r : Word) : MainPc :=
  if r ≠ 0 then printLock "Load Failed!\r\n" (.shutdown workers)
  else printLock "Load Succeed!\r\n" .resetCore

/-- The tests of the command loop.  The second `if` has a semicolon for its body, so the signal is
sent for every line that is not `quit`. -/
def command (line : List Byte) : MainPc :=
  if line = quitLine then run (.shutdown workers) else run (.signalDebug line)

def pointCode (boot : Boot) : MainPoint → Instr MainPc
  | .reset => .reset (run .powerup)
  | .powerup => .scans PowerupDAPScans fun _ => run .intclk
  | .intclk => .writeMemory intclk_source 2 (run .extclk)
  | .extclk => .writeMemory extclk_source 1 (run .extdiv)
  | .extdiv => .writeMemory ext_div_by 10 (run .powerCore)
  | .powerCore => .outside .power_core fun _ => printLock "Begining loading program.\r\n" .loadPowerup
  | .loadPowerup => .scans PowerupDAPScans fun _ => run .halt
  | .halt => .writeMemory DHCSR_ADDR haltRequest (run .readHalted)
  | .readHalted => .readMemory DHCSR_ADDR fun value =>
      if !coreHalted value then run (.panicked "cannot halt the core, check DHCSR...\r\n")
      else run .loadBegin
  | .loadBegin => .outside (.print "loading program\r\n") fun _ => run .loadOpen
  | .loadOpen => .outside (.print "Program open\r\n") fun _ =>
      match boot.file with
      | none => run (.panicked "Error in open /local/system.hex\r\n")
      | some text => run (.loadBank (Stream.ofText text))
  | .loadBank fp => .scans bankScans fun _ => run (.loadRound 0x10000000 0 fp)
  | .loadTar addr k fp => .scans [.shiftData addr AP_TAR WRITE] fun _ => run (.loadNext 1024 addr k fp)
  | .loadWord left addr k fp =>
      .scans [.shiftData ((scanHex fp).1.getD (boot.junk k)) AP_DRW WRITE] fun _ =>
        run (.loadNext left addr (k + 1) (scanHex fp).2)
  | .checkBank c => .scans bankScans fun _ => run (.checkRound 0x10000000 c)
  | .checkTar addr c => .scans [.shiftData addr AP_TAR WRITE] fun _ => run (.checkFirst addr c)
  | .checkFirst addr c => .scans [.shiftData 0 AP_DRW READ] fun _ => run (.checkNext 1023 1 addr c)
  | .checkRead left j addr c => .scans [.shiftData 0 AP_DRW READ] fun w =>
      compared boot.junk j w c fun c => .checkNext left (j + 1) addr c
  | .checkLast j addr c => .scans [.shiftData 0 DP_RDBUFF READ] fun w =>
      compared boot.junk j w c fun c => .checkRound (addr + 1024 * 4) c
  | .setImem => .writeMemory set_imem 1 (loaded 0)
  | .resetCore => .outside .resetCore fun _ => run (.scanLock boot.line)
  | .scanLock line => .lock .term_read (scanRead line)
  | .signalDebug line => .signal_set .debug (run (.scanLock line))
  | .shutdown (u :: l) => .terminate u (run (.shutdown l))
  | .shutdown [] => .reset (printLock "Powering Down\r\n" .powerDown)
  | .powerDown => .power_down (printLock "Done.\r\n" .spin)
  | .spin => .done
  | .panicked message => .panic message

def code (boot : Boot) : MainPc → Instr MainPc
  | run p => pointCode boot p
  | printLock text next => .lock .term_write (print text next)
  | print text next => .outside (.print text) fun _ => printUnlock next
  | printUnlock next => .unlock .term_write (run next)
  | scanRead line => .outside .readLine fun ans =>
      scanUnlock (scanToken line (Service.term_scanf.received 0 (ans.data.getD [])))
  | scanUnlock line => .unlock .term_read (command line)

end MainPc

/-! ## `debug_loop` -/

inductive DebugPc where
  | wait (init : Bool)
  | initLock
  | initReset
  | initPowerup
  | initUnlock
  /-- In `debug_print`: the addresses still to show; none is the empty line between the buffers. -/
  | read (a : Word) (rest : List (Option Word))
  | printLock (text : String) (rest : List (Option Word))
  | print (text : String) (rest : List (Option Word))
  | printUnlock (rest : List (Option Word))

namespace DebugPc

/-- What `debug_print` goes through. -/
def items : List (Option Word) :=
  (List.range BUF_WORDS).map (fun i => some (writebufAddr i)) ++
    none :: (List.range BUF_WORDS).map fun i => some (readbufAddr i)

/-- The loops of `debug_print`. -/
def dump : List (Option Word) → DebugPc
  | [] => wait false
  | some a :: rest => read a rest
  | none :: rest => printLock "\r\n" rest

def code : DebugPc → Instr DebugPc
  | wait init => .signal_wait (if init then initLock else dump items)
  | initLock => .lock .JTAG initReset
  | initReset => .reset initPowerup
  | initPowerup => .scans PowerupDAPScans fun _ => initUnlock
  | initUnlock => .unlock .JTAG (dump items)
  | read a rest => .readMemory a fun value => printLock (hex08 value ++ "\r\n") rest
  | printLock text rest => .lock .term_write (print text rest)
  | print text rest => .outside (.print text) fun _ => printUnlock rest
  | printUnlock rest => .unlock .term_write (dump rest)

end DebugPc

/-! ## `req_intr_handler` -/

inductive HandlerPc where
  | wait (init : Bool)
  | reset
  | powerup
  | signal

def HandlerPc.code : HandlerPc → Instr HandlerPc
  | wait init => .signal_wait (if init then reset else signal)
  | reset => .reset powerup
  | powerup => .scans PowerupDAPScans fun _ => signal
  | signal => .signal_set .dispatch (wait false)

/-! ## The whole program -/

inductive Pc where
  | main (p : MainPc)
  | dispatch (p : DispatchPc)
  | work (k : Worker) (p : WorkPc)
  | debug (p : DebugPc)
  | handler (p : HandlerPc)

/-- The same action in a larger program. -/
def Instr.map {P Q : Type} (f : P → Q) : Instr P → Instr Q
  | .signal_wait n => .signal_wait (f n)
  | .signal_set u n => .signal_set u (f n)
  | .lock m n => .lock m (f n)
  | .unlock m n => .unlock m (f n)
  | .readMemory a n => .readMemory a fun v => f (n v)
  | .writeMemory a v n => .writeMemory a v (f n)
  | .scans l n => .scans l fun v => f (n v)
  | .reset n => .reset (f n)
  | .load g n => .load g fun v => f (n v)
  | .store g v n => .store g v (f n)
  | .ack_intr b n => .ack_intr b (f n)
  | .call svc arg n => .call svc arg (f n)
  | .ret o n => .ret o (f n)
  | .outside c n => .outside c fun ans => f (n ans)
  | .terminate u n => .terminate u (f n)
  | .panic message => .panic message
  | .power_down n => .power_down (f n)
  | .done => .done

def Pc.code (boot : Boot) : Pc → Instr Pc
  | main p => (p.code boot).map main
  | dispatch p => p.code.map dispatch
  | work k p => (p.code k).map (work k)
  | debug p => p.code.map debug
  | handler p => p.code.map handler

/-- Where the threads and the handler are when `enable_GPIO_intr` returns. -/
def Pc.start : Thread → Pc
  | .main => main (.run .reset)
  | .dispatch => dispatch .wait
  | .work k => work k .wait
  | .debug => debug (.wait true)
  | .handler => handler (.wait true)

/-! ## The sections of the mutexes -/

/-- `main` holds the mutex. -/
def MainPc.holds (m : Lock) (p : MainPc) : Bool :=
  match m with
  | .term_write =>
    match p with
    | print .. | printUnlock _ => true
    | _ => false
  | .term_read =>
    match p with
    | scanRead _ | scanUnlock _ => true
    | _ => false
  | _ => false

/-- `debug_loop` holds the mutex. -/
def DebugPc.holds (m : Lock) (p : DebugPc) : Bool :=
  match m with
  | .JTAG =>
    match p with
    | initReset | initPowerup | initUnlock => true
    | _ => false
  | .term_write =>
    match p with
    | print .. | printUnlock _ => true
    | _ => false
  | _ => false

theorem MainPc.run_holds (m : Lock) (p : MainPoint) : (run p).holds m = false := by
  cases m <;> rfl

theorem MainPc.command_holds (m : Lock) (line : List Byte) : (command line).holds m = false := by
  unfold command
  split <;> exact run_holds m _

theorem DebugPc.dump_holds (m : Lock) (l : List (Option Word)) : (dump l).holds m = false := by
  match l with
  | [] | some _ :: _ | none :: _ => cases m <;> rfl

/-- At a point without a mutex `main` does nothing to one but lock `term_read_mutex`. -/
theorem MainPc.point_next {boot : Boot} {p : MainPoint} {q : MainPc} (h : (pointCode boot p).Next q) :
    (∃ p', q = run p') ∨ (∃ text p', q = printLock text p') ∨
      ∃ line, p = .scanLock line ∧ q = scanRead line := by
  have hcmp : ∀ j w c next, (∃ p', compared boot.junk j w c next = run p') ∨
      ∃ text p', compared boot.junk j w c next = printLock text p' := by
    intro j w c next
    unfold compared
    simp only
    split
    · exact .inr ⟨_, _, rfl⟩
    · exact .inl ⟨_, rfl⟩
  cases p with
  | powerCore => obtain ⟨_, rfl⟩ := h; exact .inr (.inl ⟨_, _, rfl⟩)
  | checkRead left j addr c =>
    obtain ⟨w, rfl⟩ := h
    exact (hcmp j w c _).imp id .inl
  | checkLast j addr c =>
    obtain ⟨w, rfl⟩ := h
    exact (hcmp j w c _).imp id .inl
  | setImem => cases h; exact .inr (.inl ⟨_, _, rfl⟩)
  | powerDown => cases h; exact .inr (.inl ⟨_, _, rfl⟩)
  | scanLock line => cases h; exact .inr (.inr ⟨line, rfl, rfl⟩)
  | shutdown l =>
    cases l with
    | nil => cases h; exact .inr (.inl ⟨_, _, rfl⟩)
    | cons u l => cases h; exact .inl ⟨_, rfl⟩
  | spin | panicked => cases h
  | reset | intclk | extclk | extdiv | halt | signalDebug => cases h; exact .inl ⟨_, rfl⟩
  | readHalted =>
    obtain ⟨v, rfl⟩ := h
    dsimp only
    split <;> exact .inl ⟨_, rfl⟩
  | loadOpen =>
    obtain ⟨v, rfl⟩ := h
    dsimp only
    split <;> exact .inl ⟨_, rfl⟩
  | _ => obtain ⟨_, rfl⟩ := h; exact .inl ⟨_, rfl⟩

theorem MainPc.pointCode_lock {boot : Boot} {p : MainPoint} {q : MainPc} {m : Lock}
    (h : pointCode boot p = .lock m q) : m = .term_read ∧ ∃ line, q = scanRead line := by
  cases p with
  | scanLock line => cases h; exact ⟨rfl, line, rfl⟩
  | shutdown l => cases l <;> cases h
  | _ => cases h

theorem MainPc.pointCode_unlock {boot : Boot} {p : MainPoint} {q : MainPc} {m : Lock} :
    pointCode boot p ≠ .unlock m q := by
  intro h
  cases p with
  | shutdown l => cases l <;> cases h
  | _ => cases h

theorem main_guards (boot : Boot) (m : Lock) :
    Guards m (MainPc.code boot) (fun _ => True) (MainPc.holds m) := by
  refine ⟨fun p n _ h => ?_, fun p n _ h => ?_, fun p q _ hl hu h => ?_⟩
  · cases p with
    | run p =>
      obtain ⟨rfl, line, rfl⟩ := MainPc.pointCode_lock h
      exact ⟨rfl, rfl⟩
    | printLock text next => cases h; exact ⟨rfl, rfl⟩
    | _ => cases h
  · cases p with
    | run p => exact absurd h MainPc.pointCode_unlock
    | printUnlock next => cases h; exact ⟨rfl, rfl⟩
    | scanUnlock line => cases h; exact ⟨rfl, MainPc.command_holds _ _⟩
    | _ => cases h
  · cases p with
    | run p =>
      rw [MainPc.run_holds]
      rcases MainPc.point_next h with ⟨p', rfl⟩ | ⟨text, p', rfl⟩ | ⟨line, rfl, rfl⟩
      · exact MainPc.run_holds m p'
      · cases m <;> rfl
      · cases m with
        | term_read => exact absurd rfl (hl _)
        | _ => rfl
    | printLock text next =>
      cases h
      cases m with
      | term_write => exact absurd rfl (hl _)
      | _ => rfl
    | print text next => obtain ⟨_, rfl⟩ := h; cases m <;> rfl
    | printUnlock next =>
      cases h
      cases m with
      | term_write => exact absurd rfl (hu _)
      | _ => rfl
    | scanRead line => obtain ⟨_, rfl⟩ := h; cases m <;> rfl
    | scanUnlock line =>
      cases h
      rw [MainPc.command_holds]
      cases m with
      | term_read => exact absurd rfl (hu _)
      | _ => rfl

theorem debug_guards (m : Lock) : Guards m DebugPc.code (fun _ => True) (DebugPc.holds m) := by
  refine ⟨fun p n _ h => ?_, fun p n _ h => ?_, fun p q _ hl hu h => ?_⟩
  · cases p <;> cases h <;> exact ⟨rfl, rfl⟩
  · cases p with
    | initUnlock => cases h; exact ⟨rfl, DebugPc.dump_holds _ _⟩
    | printUnlock rest => cases h; exact ⟨rfl, DebugPc.dump_holds _ _⟩
    | _ => cases h
  · cases p with
    | wait init =>
      cases h
      split
      · cases m <;> rfl
      · rw [DebugPc.dump_holds]; cases m <;> rfl
    | initLock =>
      cases h
      cases m with
      | JTAG => exact absurd rfl (hl _)
      | _ => rfl
    | initReset => cases h; cases m <;> rfl
    | initPowerup => obtain ⟨_, rfl⟩ := h; cases m <;> rfl
    | initUnlock =>
      cases h
      rw [DebugPc.dump_holds]
      cases m with
      | JTAG => exact absurd rfl (hu _)
      | _ => rfl
    | read a rest => obtain ⟨_, rfl⟩ := h; cases m <;> rfl
    | printLock text rest =>
      cases h
      cases m with
      | term_write => exact absurd rfl (hl _)
      | _ => rfl
    | print text rest => obtain ⟨_, rfl⟩ := h; cases m <;> rfl
    | printUnlock rest =>
      cases h
      rw [DebugPc.dump_holds]
      cases m with
      | term_write => exact absurd rfl (hu _)
      | _ => rfl

/-- The handler takes no mutex. -/
theorem handler_guards (m : Lock) : Guards m HandlerPc.code (fun _ => True) fun _ => false := by
  refine ⟨fun p n _ h => ?_, fun p n _ h => ?_, fun _ _ _ _ _ _ => rfl⟩
  · cases p <;> cases h
  · cases p <;> cases h

section Map

variable {P Q : Type} {f : P → Q} {i : Instr P} {m : Lock}

theorem Instr.map_eq_lock {n : Q} (h : i.map f = .lock m n) : ∃ n', i = .lock m n' ∧ n = f n' := by
  cases i <;> cases h
  exact ⟨_, rfl, rfl⟩

theorem Instr.map_eq_unlock {n : Q} (h : i.map f = .unlock m n) :
    ∃ n', i = .unlock m n' ∧ n = f n' := by
  cases i <;> cases h
  exact ⟨_, rfl, rfl⟩

theorem Instr.next_map {q : Q} (h : (i.map f).Next q) : ∃ q', i.Next q' ∧ q = f q' := by
  cases i with
  | readMemory | scans | load | outside => obtain ⟨v, rfl⟩ := h; exact ⟨_, ⟨v, rfl⟩, rfl⟩
  | panic | done => cases h
  | _ => cases h; exact ⟨_, rfl, rfl⟩

/-- The guards of a part are guards of the whole at the part's program counters. -/
theorem Guards.part {code : P → Instr P} {ok : P → Prop} {sec : P → Bool} {c : Q → Instr Q}
    {sec' : Q → Bool} (hg : Guards m code ok sec) (hcode : ∀ p, c (f p) = (code p).map f)
    (hsec : ∀ p, sec' (f p) = sec p) {p : P} (hp : ok p) :
    (∀ n, c (f p) = .lock m n → sec' (f p) = false ∧ sec' n = true) ∧
    (∀ n, c (f p) = .unlock m n → sec' (f p) = true ∧ sec' n = false) ∧
    ∀ q, (∀ n, c (f p) ≠ .lock m n) → (∀ n, c (f p) ≠ .unlock m n) → (c (f p)).Next q →
      sec' q = sec' (f p) := by
  rw [hcode, hsec]
  refine ⟨fun n h => ?_, fun n h => ?_, fun q hl hu h => ?_⟩
  · obtain ⟨n', hn', rfl⟩ := Instr.map_eq_lock h
    rw [hsec]
    exact hg.enter p n' hp hn'
  · obtain ⟨n', hn', rfl⟩ := Instr.map_eq_unlock h
    rw [hsec]
    exact hg.leave p n' hp hn'
  · obtain ⟨q', hq', rfl⟩ := Instr.next_map h
    rw [hsec]
    refine hg.stay p q' hp (fun n hn => hl (f n) ?_) (fun n hn => hu (f n) ?_) hq'
    · rw [hn]; rfl
    · rw [hn]; rfl

end Map

/-- The context holds the mutex. -/
def Pc.holds (m : Lock) : Pc → Bool
  | main p => p.holds m
  | dispatch p => p.holds m
  | work _ p => p.holds m
  | debug p => p.holds m
  | handler _ => false

/-- A worker runs its own services, in order. -/
def Pc.InOrder : Pc → Prop
  | work k p => p.Fits k
  | _ => True

theorem Pc.InOrder.next {boot : Boot} {p q : Pc} (hp : p.InOrder) (h : (p.code boot).Next q) :
    q.InOrder := by
  cases p with
  | work k p =>
    obtain ⟨q', hq', rfl⟩ := Instr.next_map h
    exact WorkPc.Fits.next hp hq'
  | main | dispatch | debug | handler =>
    obtain ⟨q', -, rfl⟩ := Instr.next_map h
    trivial

/-- **The sections of the mutexes** in the whole program. -/
theorem pc_guards (boot : Boot) (m : Lock) : Guards m (Pc.code boot) Pc.InOrder (Pc.holds m) := by
  have hall : ∀ p, Pc.InOrder p →
      (∀ n, p.code boot = .lock m n → p.holds m = false ∧ n.holds m = true) ∧
      (∀ n, p.code boot = .unlock m n → p.holds m = true ∧ n.holds m = false) ∧
      ∀ q, (∀ n, p.code boot ≠ .lock m n) → (∀ n, p.code boot ≠ .unlock m n) →
        (p.code boot).Next q → q.holds m = p.holds m := by
    intro p hp
    cases p with
    | main p =>
      exact (main_guards boot m).part (c := Pc.code boot) (fun _ => rfl) (fun _ => rfl) trivial
    | dispatch p =>
      exact (dispatch_guards m).part (c := Pc.code boot) (fun _ => rfl) (fun _ => rfl) trivial
    | work k p =>
      exact (work_guards m k).part (c := Pc.code boot) (fun _ => rfl) (fun _ => rfl) hp.inOrder
    | debug p =>
      exact (debug_guards m).part (c := Pc.code boot) (fun _ => rfl) (fun _ => rfl) trivial
    | handler p =>
      exact (handler_guards m).part (c := Pc.code boot) (fun _ => rfl) (fun _ => rfl) trivial
  exact ⟨fun p n hp => (hall p hp).1 n, fun p n hp => (hall p hp).2.1 n,
    fun p q hp => (hall p hp).2.2 q⟩

theorem Pc.start_holds (m : Lock) (t : Thread) : (Pc.start t).holds m = false := by
  cases t <;> cases m <;> rfl

theorem Pc.start_inOrder (t : Thread) : (Pc.start t).InOrder := by
  cases t with
  | work k => exact ⟨(fun _ hs => nomatch hs), trivial⟩
  | _ => trivial

end Expedition
