import Expedition.Host.Threads

/-!
# The program scan by scan

All the contexts of the program on one debug port, with one scan of the port (one `setIR` or one
`shiftData`) or one `reset` as a step.  The handler preempts the threads: once it has begun, no
thread takes a step before it returns.

* A scan the driver panics on stops its context for good, with the mutexes it holds; so does
  `terminate`.  What `panic` does then, and everything after `power_down`, is not followed here: it
  makes no scan.
* `calls` records the memory calls that have ended, with the target's memory when they made their
  access.
* The chip may write its memory and raise the request line at any time.
* `accesses_alone` — as long as the accesses made without `JTAG_mutex` keep out of the way (`PortOk`),
  a memory call is never interrupted by another scan, and does what it says.
-/

namespace Expedition

open Function

/-! ## The system -/

inductive Fate where
  | running
  | terminated
  | panicked (message : String)
  deriving DecidableEq, Repr

/-- A memory call that has ended. -/
inductive MemoryCall where
  /-- `readMemory(a)` returned `v`; `seen` is the memory when it accessed DRW. -/
  | read (t : Thread) (a v : Word) (seen : Word → Word)
  /-- `writeMemory(a, v)`, with the memory before and after its access of DRW. -/
  | write (t : Thread) (a v : Word) (before after : Word → Word)

/-- The call did to the target what it says. -/
def MemoryCall.Right : MemoryCall → Prop
  | read _ a v seen => v = seen (wordAlign a)
  | write _ a v before after => after = update before (wordAlign a) v

structure Rig where
  regs : Regs (Word → Word)
  /-- What the threads share besides the port; the memory is the port's. -/
  shared : Shared
  pc : Thread → Pc
  fate : Thread → Fate
  /-- The scans a context has made of the call it is in. -/
  done : Thread → Nat
  /-- The memory at a context's last eighth scan, which is the access of DRW in a memory call. -/
  seen : Thread → Word → Word
  calls : List MemoryCall

/-- The instruction uses the port. -/
def Instr.onPort {P : Type} : Instr P → Bool
  | .readMemory .. | .writeMemory .. | .scans .. | .reset _ => true
  | _ => false

/-- The instruction is a `readMemory` or a `writeMemory`. -/
def Instr.isMemoryCall {P : Type} : Instr P → Bool
  | .readMemory .. | .writeMemory .. => true
  | _ => false

namespace Rig

def shareMem (s : Rig) : Shared := { s.shared with mem := s.regs.mem }

def goto (s : Rig) (t : Thread) (p : Pc) : Rig :=
  { s with pc := update s.pc t p, done := update s.done t 0 }

def stop (s : Rig) (t : Thread) (f : Fate) : Rig := { s with fate := update s.fate t f }

/-- Context `t` has made one more scan of its call, which left the port at `g`. -/
def scanned (s : Rig) (t : Thread) (g : Regs (Word → Word)) : Rig :=
  { s with
    regs := g, done := update s.done t (s.done t + 1)
    seen := if s.done t = 7 then update s.seen t s.regs.mem else s.seen }

/-- The next scan of the call `l` of context `t`; after the last `finish` has its result. -/
def scan (s : Rig) (t : Thread) (l : List Scan) (finish : Word → Rig → Rig) : Option Rig :=
  l[s.done t]?.map fun sc =>
    match sc.run s.regs with
    | none => s.stop t (.panicked (sc.message s.regs))
    | some (w, g) => if s.done t + 1 = l.length then finish w (s.scanned t g) else s.scanned t g

/-- One step of context `t`. -/
def stepOf (boot : Boot) (t : Thread) (ans : Answer) (s : Rig) : Option Rig :=
  match (s.pc t).code boot with
  | .readMemory a next =>
    s.scan t (readMemoryScans a) fun w s' =>
      { s'.goto t (next w) with calls := .read t a w (s'.seen t) :: s'.calls }
  | .writeMemory a v next =>
    s.scan t (writeMemoryScans a v) fun _ s' =>
      { s'.goto t next with calls := .write t a v s.regs.mem s'.regs.mem :: s'.calls }
  | .scans l next => s.scan t l fun w s' => s'.goto t (next w)
  | .reset next => some ({ s with regs := { s.regs with ir := 0xE } }.goto t next)
  | .terminate u next => some ((s.stop u .terminated).goto t next)
  | .panic message => some (s.stop t (.panicked message))
  | i => (i.exec t ans s.shareMem).map fun (sh, p) => { s with shared := sh }.goto t p

/-- The handler is not under way. -/
def handlerIdle (s : Rig) : Bool :=
  match s.pc .handler with
  | .handler (.wait _) => true
  | _ => false

/-- The context can be given the processor. -/
def ready (s : Rig) (t : Thread) : Bool := s.fate t = .running && (t = .handler || s.handlerIdle)

end Rig

inductive RigAct where
  | step (t : Thread) (ans : Answer)
  /-- A rising edge of `req_intr`. -/
  | edge
  /-- The chip writes a word of its memory. -/
  | write (a v : Word)
  deriving DecidableEq, Repr

/-- The state in which `enable_GPIO_intr` returns: the constructor has reset the port, the threads
are in their first `signal_wait`. -/
structure Rig.Fresh (s : Rig) : Prop where
  ir : s.regs.ir = 0xE
  mutex : ∀ m, s.shared.mutex m = none
  flag : ∀ t, s.shared.flag t = false
  pc : ∀ t, s.pc t = Pc.start t
  fate : ∀ t, s.fate t = .running
  done : ∀ t, s.done t = 0
  calls : s.calls = []

def rig (boot : Boot) : Machine Rig RigAct where
  start := Rig.Fresh
  step
    | .step t ans, s => if s.ready t then s.stepOf boot t ans else none
    | .edge, s =>
      some { s with shared := { s.shared with flag := update s.shared.flag .handler true } }
    | .write a v, s => some { s with regs := { s.regs with mem := update s.regs.mem a v } }

/-! ## The condition -/

section

variable (boot : Boot)

/-- The context is between the first and the last scan of a `readMemory` or `writeMemory`. -/
def Rig.mid (s : Rig) (t : Thread) : Bool :=
  s.fate t = .running && ((s.pc t).code boot).isMemoryCall && 0 < s.done t

/-- The context runs with `JTAG_mutex` held. -/
def Rig.inside (s : Rig) (t : Thread) : Bool := s.fate t = .running && (s.pc t).holds .JTAG

/-- The accesses made without `JTAG_mutex` (by `main`, by `debug_print` and by the handler) keep out
of the way as if they had taken it: such a context scans or resets only while no other holds the
mutex or is in the middle of a memory call, and the mutex is taken only while no other context is in
the middle of one. -/
def PortOk : RigAct → Rig → Prop
  | .step t _, s =>
    (((s.pc t).code boot).onPort = true → s.inside t = false →
      ∀ u, u ≠ t → s.inside u = false ∧ s.mid boot u = false) ∧
    ((∃ n, (s.pc t).code boot = .lock .JTAG n) → ∀ u, u ≠ t → s.mid boot u = false)
  | _, _ => True

end

/-! ## One scan -/

variable {boot : Boot} {s s' : Rig} {t u : Thread} {ans : Answer}

theorem Rig.mid_iff : s.mid boot t = true ↔
    s.fate t = .running ∧ ((s.pc t).code boot).isMemoryCall = true ∧ 0 < s.done t := by
  simp [mid, and_assoc]

theorem Rig.inside_iff : s.inside t = true ↔ s.fate t = .running ∧ (s.pc t).holds .JTAG = true := by
  simp [inside]

/-- What a step inside a call comes down to: a panic, one more scan, or the last. -/
theorem Rig.scan_cases {l : List Scan} {finish : Word → Rig → Rig} (h : s.scan t l finish = some s') :
    ∃ sc, l[s.done t]? = some sc ∧
      ((∃ message, s' = s.stop t (.panicked message)) ∨
      ∃ w g, sc.run s.regs = some (w, g) ∧
        ((s.done t + 1 = l.length ∧ s' = finish w (s.scanned t g)) ∨
          (s.done t + 1 ≠ l.length ∧ s' = s.scanned t g))) := by
  simp only [scan, Option.map_eq_some_iff] at h
  obtain ⟨sc, hsc, rfl⟩ := h
  refine ⟨sc, hsc, ?_⟩
  cases hrun : sc.run s.regs with
  | none => exact .inl ⟨_, rfl⟩
  | some r =>
    obtain ⟨w, g⟩ := r
    refine .inr ⟨w, g, rfl, ?_⟩
    by_cases hlast : s.done t + 1 = l.length
    · exact .inl ⟨hlast, if_pos hlast⟩
    · exact .inr ⟨hlast, if_neg hlast⟩

/-- Where the scans of the instruction have brought the port. -/
def Instr.Way {P : Type} (g : Regs (Word → Word)) (seen : Word → Word) (k : Nat) : Instr P → Prop
  | .readMemory a _ => k < 10 ∧ ReadWay a (seen (wordAlign a)) g k
  | .writeMemory a _ _ => k < 8 ∧ Opening a g k
  | _ => True

/-! ## The invariant -/

/-- The mutex is held as the program counters say; a context in the middle of a memory call is alone on
the port and has brought it where its scans should have; and every call that has ended was right. -/
structure Rig.Ok (boot : Boot) (s : Rig) : Prop where
  inOrder : ∀ t, (s.pc t).InOrder
  marks : (s.shared.mutex .JTAG).Marks fun t => (s.pc t).holds .JTAG
  alone : ∀ t u, u ≠ t → s.mid boot t = true → s.inside u = false ∧ s.mid boot u = false
  way : ∀ t, s.mid boot t = true → ((s.pc t).code boot).Way s.regs (s.seen t) (s.done t)
  right : ∀ c ∈ s.calls, c.Right

/-- **Alone on the port.**  Where a context makes a scan or a reset no other is in the middle of a
memory call, or holds the mutex. -/
theorem Rig.Ok.clear (hs : s.Ok boot) (hok : PortOk boot (.step t ans) s) (hport : ((s.pc t).code boot).onPort = true) (hu : u ≠ t) :
    s.inside u = false ∧ s.mid boot u = false := by
  cases hin : s.inside t with
  | false => exact hok.1 hport hin u hu
  | true =>
    constructor
    · cases hinu : s.inside u with
      | false => rfl
      | true => exact absurd (hs.marks.unique (inside_iff.mp hinu).2 (inside_iff.mp hin).2) hu
    · cases hmid : s.mid boot u with
      | false => rfl
      | true =>
        have := (hs.alone u t (Ne.symm hu) hmid).1
        rw [hin] at this
        cases this

/-- A context moves on to `p` and is in no call there.  It changes the port, or takes the mutex, only
while no other context is in the middle of a memory call. -/
structure Rig.Moves (boot : Boot) (t : Thread) (p : Pc) (s s' : Rig) : Prop where
  pc : s'.pc = update s.pc t p
  fate : ∀ u, s'.fate u = .running → s.fate u = .running
  own : s'.done t = 0
  done : ∀ u, u ≠ t → s'.done u = s.done u
  seen : ∀ u, u ≠ t → s'.seen u = s.seen u
  regs : s'.regs = s.regs ∨ ∀ u, u ≠ t → s.mid boot u = false
  next : ((s.pc t).code boot).Next p
  marks : (s'.shared.mutex .JTAG).Marks (update (fun u => (s.pc u).holds .JTAG) t (p.holds .JTAG))
  enter : p.holds .JTAG = true → (s.pc t).holds .JTAG = true ∨ ∀ u, u ≠ t → s.mid boot u = false
  right : ∀ c ∈ s'.calls, c.Right

theorem Rig.Moves.mid_of {p : Pc} (hm : Moves boot t p s s') (hmid : s'.mid boot u = true) :
    u ≠ t ∧ s.mid boot u = true := by
  obtain ⟨hf, hc, hd⟩ := mid_iff.mp hmid
  have hu : u ≠ t := by
    rintro rfl
    rw [hm.own] at hd
    exact absurd hd (Nat.lt_irrefl 0)
  rw [hm.pc, update_of_ne hu] at hc
  rw [hm.done u hu] at hd
  exact ⟨hu, mid_iff.mpr ⟨hm.fate u hf, hc, hd⟩⟩

theorem Rig.Moves.inside_of {p : Pc} (hm : Moves boot t p s s') (hu : u ≠ t)
    (hin : s'.inside u = true) : s.inside u = true := by
  obtain ⟨hf, hh⟩ := inside_iff.mp hin
  rw [hm.pc, update_of_ne hu] at hh
  exact inside_iff.mpr ⟨hm.fate u hf, hh⟩

theorem Rig.Ok.moves {p : Pc} (hs : s.Ok boot) (hrun : s.fate t = .running)
    (hm : Moves boot t p s s') : s'.Ok boot := by
  refine ⟨fun u => ?_, ?_, fun v u huv hv => ?_, fun v hv => ?_, hm.right⟩
  · rw [hm.pc]
    by_cases hu : u = t
    · subst hu
      rw [update_self]
      exact (hs.inOrder u).next hm.next
    · rw [update_of_ne hu]
      exact hs.inOrder u
  · have hsec : (fun u => (s'.pc u).holds .JTAG) =
        update (fun u => (s.pc u).holds .JTAG) t (p.holds .JTAG) := by
      funext u
      rw [hm.pc]
      by_cases hu : u = t
      · subst hu
        simp only [update_self]
      · simp only [update_of_ne hu]
    rw [hsec]
    exact hm.marks
  · obtain ⟨hvt, hmid⟩ := hm.mid_of hv
    constructor
    · cases hin : s'.inside u with
      | false => rfl
      | true =>
        by_cases hu : u = t
        · -- the context that moved: it holds the mutex now, and did so before or was alone
          subst hu
          have hh := (inside_iff.mp hin).2
          rw [hm.pc, update_self] at hh
          rcases hm.enter hh with hbefore | hclear
          · have := (hs.alone v u huv hmid).1
            rw [inside_iff.mpr ⟨hrun, hbefore⟩] at this
            cases this
          · rw [hclear v hvt] at hmid
            cases hmid
        · have := (hs.alone v u huv hmid).1
          rw [hm.inside_of hu hin] at this
          cases this
    · cases hmidu : s'.mid boot u with
      | false => rfl
      | true =>
        have := (hs.alone v u huv hmid).2
        rw [(hm.mid_of hmidu).2] at this
        cases this
  · obtain ⟨hvt, hmid⟩ := hm.mid_of hv
    rcases hm.regs with hregs | hclear
    · rw [hm.pc, update_of_ne hvt, hregs, hm.seen v hvt, hm.done v hvt]
      exact hs.way v hmid
    · rw [hclear v hvt] at hmid
      cases hmid

theorem Rig.stop_fate {f : Fate} {v : Thread} (hf : f ≠ .running)
    (hv : (s.stop u f).fate v = .running) : s.fate v = .running := by
  by_cases hvu : v = u
  · subst hvu
    exact absurd (by simpa [Rig.stop] using hv) hf
  · simpa [Rig.stop, hvu] using hv

/-- A context that stops is in no one's way. -/
theorem Rig.Ok.stop {f : Fate} (hs : s.Ok boot) (hf : f ≠ .running) : (s.stop u f).Ok boot := by
  have hfate : ∀ v, (s.stop u f).fate v = .running → s.fate v = .running := fun _ => stop_fate hf
  have hmid : ∀ v, (s.stop u f).mid boot v = true → s.mid boot v = true := by
    intro v hv
    obtain ⟨h, hc, hd⟩ := mid_iff.mp hv
    exact mid_iff.mpr ⟨hfate v h, hc, hd⟩
  have hin : ∀ v, (s.stop u f).inside v = true → s.inside v = true := by
    intro v hv
    obtain ⟨h, hh⟩ := inside_iff.mp hv
    exact inside_iff.mpr ⟨hfate v h, hh⟩
  refine ⟨hs.inOrder, hs.marks, fun v w hvw hv => ?_, fun v hv => hs.way v (hmid v hv), hs.right⟩
  obtain ⟨hi, hm⟩ := hs.alone v w hvw (hmid v hv)
  exact ⟨Bool.eq_false_iff.mpr fun h => Bool.eq_false_iff.mp hi (hin w h),
    Bool.eq_false_iff.mpr fun h => Bool.eq_false_iff.mp hm (hmid w h)⟩

/-- One more scan of a call, by a context that is alone on the port. -/
theorem Rig.Ok.scanned {g : Regs (Word → Word)} (hs : s.Ok boot)
    (hclear : ∀ u, u ≠ t → s.inside u = false ∧ s.mid boot u = false)
    (hway : ((s.pc t).code boot).Way g ((s.scanned t g).seen t) (s.done t + 1)) :
    (s.scanned t g).Ok boot := by
  have hmid : ∀ u, u ≠ t → (s.scanned t g).mid boot u = false := by
    intro u hu
    simp only [Rig.mid, Rig.scanned, update_of_ne hu]
    exact (hclear u hu).2
  refine ⟨hs.inOrder, hs.marks, fun v u huv hv => ?_, fun v hv => ?_, hs.right⟩
  · by_cases hvt : v = t
    · subst hvt
      exact ⟨(hclear u huv).1, hmid u huv⟩
    · rw [hmid v hvt] at hv
      cases hv
  · by_cases hvt : v = t
    · subst hvt
      simpa [Rig.scanned] using hway
    · rw [hmid v hvt] at hv
      cases hv

/-- A step off the port leaves it, and the mutex changes hands with the program counters. -/
theorem Rig.Ok.off_port {sh : Shared} {p : Pc} (hs : s.Ok boot) (hok : PortOk boot (.step t ans) s)
    (hrun : s.fate t = .running)
    (he : ((s.pc t).code boot).exec t ans s.shareMem = some (sh, p)) :
    ({ s with shared := sh }.goto t p).Ok boot := by
  have hg := pc_guards boot .JTAG
  have hnext := Instr.exec_next he
  refine hs.moves hrun ⟨rfl, fun _ h => h, update_self .., fun u hu => update_of_ne hu _ _,
    fun _ _ => rfl, .inl rfl, hnext, hg.exec (hs.inOrder t) he hs.marks rfl, fun hp => ?_, hs.right⟩
  by_cases hlock : ∃ n, (s.pc t).code boot = .lock .JTAG n
  · exact .inr fun u hu => hok.2 hlock u hu
  · by_cases hunlock : ∃ n, (s.pc t).code boot = .unlock .JTAG n
    · obtain ⟨n, hn⟩ := hunlock
      rw [hn] at hnext
      cases hnext
      rw [(hg.leave _ _ (hs.inOrder t) hn).2] at hp
      cases hp
    · rw [hg.stay _ _ (hs.inOrder t) (fun n hn => hlock ⟨n, hn⟩) (fun n hn => hunlock ⟨n, hn⟩)
        hnext] at hp
      exact .inl hp

/-- A step on the port that ends a call, or is a reset. -/
theorem Rig.Ok.on_port {p : Pc} (hs : s.Ok boot) (hrun : s.fate t = .running)
    (hport : ((s.pc t).code boot).onPort = true) (hnext : ((s.pc t).code boot).Next p)
    (hclear : ∀ u, u ≠ t → s.inside u = false ∧ s.mid boot u = false)
    (hshared : s'.shared = s.shared) (hpc : s'.pc = update s.pc t p) (hfate : s'.fate = s.fate)
    (hown : s'.done t = 0) (hdone : ∀ u, u ≠ t → s'.done u = s.done u)
    (hseen : ∀ u, u ≠ t → s'.seen u = s.seen u) (hright : ∀ c ∈ s'.calls, c.Right) :
    s'.Ok boot := by
  have hstay : p.holds .JTAG = (s.pc t).holds .JTAG := by
    refine (pc_guards boot .JTAG).stay _ _ (hs.inOrder t) (fun n hn => ?_) (fun n hn => ?_) hnext
    · rw [hn] at hport; cases hport
    · rw [hn] at hport; cases hport
  refine hs.moves hrun ⟨hpc, fun u h => by rwa [hfate] at h, hown, hdone, hseen,
    .inr fun u hu => (hclear u hu).2, hnext, ?_, fun hp => .inl (hstay ▸ hp), hright⟩
  rw [hshared, hstay, update_eq_self_iff.mpr rfl]
  exact hs.marks

/-- A read: one more scan, or its end with the word at its address. -/
theorem Rig.Ok.readMemory {a : Word} {next : Word → Pc} (hs : s.Ok boot)
    (hclear : ∀ u, u ≠ t → s.inside u = false ∧ s.mid boot u = false) (hrun : s.fate t = .running)
    (hi : (s.pc t).code boot = .readMemory a next)
    (h : s.scan t (readMemoryScans a) (fun w s' =>
      { s'.goto t (next w) with calls := .read t a w (s'.seen t) :: s'.calls }) = some s') :
    s'.Ok boot := by
  have hway : s.done t < 10 ∧ ReadWay a (s.seen t (wordAlign a)) s.regs (s.done t) := by
    by_cases hd : 0 < s.done t
    · have := hs.way t (mid_iff.mpr ⟨hrun, by rw [hi]; rfl, hd⟩)
      rwa [hi] at this
    · rw [Nat.eq_zero_of_not_pos hd]
      exact ⟨by omega, trivial⟩
  obtain ⟨sc, hsc, ⟨message, rfl⟩ | ⟨w, g, hrun', ⟨hlast, rfl⟩ | ⟨hlast, rfl⟩⟩⟩ := scan_cases h
  · exact hs.stop nofun
  · have hnine : s.done t = 9 := by
      have : (readMemoryScans a).length = 10 := rfl
      omega
    have hread := hway.2
    rw [hnine] at hread hsc
    obtain ⟨sc', g', hsc', hw⟩ := hread.last
    obtain rfl : sc = sc' := Option.some.inj (hsc.symm.trans hsc')
    have hval : w = s.seen t (wordAlign a) := by
      rw [hw] at hrun'
      exact (congrArg Prod.fst (Option.some.inj hrun')).symm
    refine hs.on_port (p := next w) hrun (by rw [hi]; rfl) (by rw [hi]; exact ⟨w, rfl⟩) hclear rfl rfl rfl
      (update_self ..) (fun u hu => ?_) (fun u hu => ?_) ?_
    · simp [goto, Rig.scanned, hu]
    · simp [goto, Rig.scanned, hnine]
    · intro c hc
      rcases List.mem_cons.mp hc with rfl | hc
      · simpa [MemoryCall.Right, Rig.scanned, hnine] using hval
      · exact hs.right c hc
  · have hlt : s.done t < 9 := by
      have : (readMemoryScans a).length = 10 := rfl
      have := hway.1
      omega
    obtain ⟨sc', v', g', hsc', hw, hway'⟩ := hway.2.step hlt
    obtain rfl : sc = sc' := Option.some.inj (hsc.symm.trans hsc')
    obtain rfl : g = g' := by
      rw [hw] at hrun'
      exact (congrArg Prod.snd (Option.some.inj hrun')).symm
    refine hs.scanned hclear ?_
    rw [hi]
    refine ⟨by omega, ?_⟩
    by_cases hseven : s.done t = 7
    · have hseen : (s.scanned t g).seen t = s.regs.mem := by simp [Rig.scanned, hseven]
      rw [if_pos hseven] at hway'
      rw [hseen]
      exact hway'
    · have hseen : (s.scanned t g).seen t = s.seen t := by simp [Rig.scanned, hseven]
      rw [if_neg hseven] at hway'
      rw [hseen]
      exact hway'

/-- A write: one more scan, or its end with the word stored. -/
theorem Rig.Ok.writeMemory {a v : Word} {next : Pc} (hs : s.Ok boot)
    (hclear : ∀ u, u ≠ t → s.inside u = false ∧ s.mid boot u = false) (hrun : s.fate t = .running)
    (hi : (s.pc t).code boot = .writeMemory a v next)
    (h : s.scan t (writeMemoryScans a v) (fun _ s' =>
      { s'.goto t next with calls := .write t a v s.regs.mem s'.regs.mem :: s'.calls }) = some s') :
    s'.Ok boot := by
  have hway : s.done t < 8 ∧ Opening a s.regs (s.done t) := by
    by_cases hd : 0 < s.done t
    · have := hs.way t (mid_iff.mpr ⟨hrun, by rw [hi]; rfl, hd⟩)
      rwa [hi] at this
    · rw [Nat.eq_zero_of_not_pos hd]
      exact ⟨by omega, trivial⟩
  have hlen : (writeMemoryScans a v).length = 8 := rfl
  obtain ⟨sc, hsc, ⟨message, rfl⟩ | ⟨w, g, hrun', ⟨hlast, rfl⟩ | ⟨hlast, rfl⟩⟩⟩ := scan_cases h
  · exact hs.stop nofun
  · have hseven : s.done t = 7 := by omega
    have hopen := hway.2
    rw [hseven] at hopen hsc
    obtain ⟨sc', w', g', hsc', hw, hmem⟩ := hopen.write v
    obtain rfl : sc = sc' := Option.some.inj (hsc.symm.trans hsc')
    obtain rfl : g = g' := by
      rw [hw] at hrun'
      exact (congrArg Prod.snd (Option.some.inj hrun')).symm
    refine hs.on_port (p := next) hrun (by rw [hi]; rfl) (by rw [hi]; rfl) hclear rfl rfl rfl
      (update_self ..) (fun u hu => ?_) (fun u hu => ?_) ?_
    · simp [goto, Rig.scanned, hu]
    · simp [goto, Rig.scanned, hseven, hu]
    · intro c hc
      rcases List.mem_cons.mp hc with rfl | hc
      · exact hmem
      · exact hs.right c hc
  · have hlt : s.done t < 7 := by omega
    obtain ⟨sc', v', g', hsc', hw, -, hway'⟩ := hway.2.step hlt
    rw [writeMemoryScans_open hlt] at hsc
    obtain rfl : sc = sc' := Option.some.inj (hsc.symm.trans hsc')
    obtain rfl : g = g' := by
      rw [hw] at hrun'
      exact (congrArg Prod.snd (Option.some.inj hrun')).symm
    refine hs.scanned hclear ?_
    rw [hi]
    exact ⟨by omega, hway'⟩

/-- Scans of another call. -/
theorem Rig.Ok.scans {l : List Scan} {next : Word → Pc} (hs : s.Ok boot)
    (hclear : ∀ u, u ≠ t → s.inside u = false ∧ s.mid boot u = false) (hrun : s.fate t = .running)
    (hi : (s.pc t).code boot = .scans l next)
    (h : s.scan t l (fun w s' => s'.goto t (next w)) = some s') : s'.Ok boot := by
  obtain ⟨sc, -, ⟨message, rfl⟩ | ⟨w, g, -, ⟨-, rfl⟩ | ⟨-, rfl⟩⟩⟩ := scan_cases h
  · exact hs.stop nofun
  · refine hs.on_port (p := next w) hrun (by rw [hi]; rfl) (by rw [hi]; exact ⟨w, rfl⟩) hclear rfl rfl rfl
      (update_self ..) (fun u hu => ?_) (fun u hu => ?_) hs.right
    · simp [goto, Rig.scanned, hu]
    · by_cases hseven : s.done t = 7 <;> simp [goto, Rig.scanned, hseven, hu]
  · refine hs.scanned hclear ?_
    rw [hi]
    trivial

theorem Rig.Ok.stepOf (hs : s.Ok boot) (hok : PortOk boot (.step t ans) s) (hrun : s.fate t = .running)
    (h : s.stepOf boot t ans = some s') : s'.Ok boot := by
  have hclear := fun hport u hu => hs.clear (u := u) hok hport hu
  unfold Rig.stepOf at h
  split at h
  · rename_i a next hi
    exact hs.readMemory (hclear (by rw [hi]; rfl)) hrun hi h
  · rename_i a v next hi
    exact hs.writeMemory (hclear (by rw [hi]; rfl)) hrun hi h
  · rename_i l next hi
    exact hs.scans (hclear (by rw [hi]; rfl)) hrun hi h
  · rename_i next hi
    cases h
    refine hs.on_port (p := next) hrun (by rw [hi]; rfl) (by rw [hi]; rfl) (hclear (by rw [hi]; rfl)) rfl
      rfl rfl (update_self ..) (fun u hu => update_of_ne hu _ _) (fun _ _ => rfl) hs.right
  · rename_i u next hi
    cases h
    have hstay : next.holds .JTAG = (s.pc t).holds .JTAG := by
      refine (pc_guards boot .JTAG).stay _ _ (hs.inOrder t) (fun n hn => ?_) (fun n hn => ?_)
        (by rw [hi]; rfl)
      · rw [hi] at hn; cases hn
      · rw [hi] at hn; cases hn
    refine hs.moves hrun ⟨rfl, fun v hv => ?_, update_self .., fun v hv => update_of_ne hv _ _,
      fun _ _ => rfl, .inl rfl, by rw [hi]; rfl, ?_, fun hp => .inl (hstay ▸ hp), hs.right⟩
    · exact stop_fate (u := u) (f := .terminated) nofun hv
    · rw [hstay, update_eq_self_iff.mpr rfl]
      exact hs.marks
  · cases h
    exact hs.stop nofun
  · simp only [Option.map_eq_some_iff] at h
    obtain ⟨⟨sh, p⟩, he, rfl⟩ := h
    exact hs.off_port hok hrun he

/-- The chip's writes are to the memory only. -/
theorem Instr.Way.mem {P : Type} {g : Regs (Word → Word)} {seen : Word → Word} {k : Nat} {i : Instr P}
    (h : i.Way g seen k) (m : Word → Word) : i.Way { g with mem := m } seen k := by
  cases i with
  | readMemory a next => exact ⟨h.1, h.2.mem m⟩
  | writeMemory a v next => exact ⟨h.1, h.2.mem m⟩
  | _ => trivial

theorem Rig.Fresh.ok (hf : s.Fresh) : s.Ok boot := by
  have hmid : ∀ t, s.mid boot t = false := by
    intro t
    rw [mid, hf.done]
    simp
  refine ⟨fun t => ?_, ?_, fun t u _ ht => ?_, fun t ht => ?_, fun c hc => ?_⟩
  · rw [hf.pc]
    exact Pc.start_inOrder t
  · rw [hf.mutex]
    refine Mutex.Marks.free fun t => ?_
    rw [hf.pc]
    exact Pc.start_holds .JTAG t
  · rw [hmid] at ht
    cases ht
  · rw [hmid] at ht
    cases ht
  · rw [hf.calls] at hc
    cases hc

theorem rig_ok (hr : (rig boot).ReachIf (PortOk boot) s) : s.Ok boot := by
  refine hr.invariant (I := Rig.Ok boot) (fun s (hf : s.Fresh) => hf.ok) ?_
  intro a s s' hs hok h
  cases a with
  | step t ans =>
    simp only [rig] at h
    split at h
    · rename_i hready
      simp only [Rig.ready, Bool.and_eq_true, decide_eq_true_eq] at hready
      exact hs.stepOf hok hready.1 h
    · cases h
  | edge =>
    cases h
    exact ⟨hs.inOrder, hs.marks, hs.alone, hs.way, hs.right⟩
  | write a v =>
    cases h
    exact ⟨hs.inOrder, hs.marks, hs.alone, fun t ht => (hs.way t ht).mem _, hs.right⟩

/-- **Memory calls are alone on the port**, in every run in which the accesses made without
`JTAG_mutex` keep out of the way: where a context scans or resets, no other is between the first and
the last scan of a memory call; and every `readMemory` and `writeMemory` that has ended returned the
target's word at its address, or stored it there. -/
theorem accesses_alone (hr : (rig boot).ReachIf (PortOk boot) s) :
    (∀ t ans s', PortOk boot (.step t ans) s → (rig boot).step (.step t ans) s = some s' →
      ((s.pc t).code boot).onPort = true → ∀ u, u ≠ t → s.mid boot u = false) ∧
    ∀ c ∈ s.calls, c.Right := by
  have hs := rig_ok hr
  exact ⟨fun t ans s' hok _ hport u hu => (hs.clear hok hport hu).2, hs.right⟩

/-! ## Runs -/

instance (p : Thread → Prop) [DecidablePred p] : Decidable (∀ t, p t) :=
  decidable_of_iff (p .main ∧ p .dispatch ∧ (∀ k, p (.work k)) ∧ p .debug ∧ p .handler)
    ⟨fun h t => match t with
      | .main => h.1
      | .dispatch => h.2.1
      | .work k => h.2.2.1 k
      | .debug => h.2.2.2.1
      | .handler => h.2.2.2.2, fun h => ⟨h _, h _, fun _ => h _, h _, h _⟩⟩

def Instr.isLock {P : Type} (m : Lock) : Instr P → Bool
  | .lock m' _ => m' = m
  | _ => false

theorem Instr.isLock_iff {P : Type} {m : Lock} {i : Instr P} : i.isLock m = true ↔ ∃ n, i = .lock m n := by
  cases i <;> simp [isLock]

instance (boot : Boot) (a : RigAct) (s : Rig) : Decidable (PortOk boot a s) :=
  match a with
  | .step t _ =>
    have : Decidable (∃ n, (s.pc t).code boot = .lock .JTAG n) := decidable_of_iff _ Instr.isLock_iff
    inferInstanceAs (Decidable (_ ∧ _))
  | .edge => .isTrue trivial
  | .write .. => .isTrue trivial

def Rig.fresh : Rig where
  regs :=
    { ir := 0xE, select := 0, ctrlstat := 0, csw := 0, tar := 0, rdata := 0, mem := fun _ => 0
      waits := [], incr := (· + 4), bus := [] }
  shared := (Host.fresh (fun _ => 0) false false).shared
  pc := Pc.start
  fate := fun _ => .running
  done := fun _ => 0
  seen := fun _ _ => 0
  calls := []

theorem Rig.fresh_fresh : Rig.fresh.Fresh :=
  ⟨rfl, fun _ => rfl, fun _ => rfl, fun _ => rfl, fun _ => rfl, fun _ => rfl, rfl⟩

/-- `n` steps of a context. -/
def stepsOf (t : Thread) (n : Nat) : List RigAct := List.replicate n (.step t Answer.empty)

/-- `main` resets the port, powers it up and sets the first clock register. -/
theorem accesses_alone_clock :
    ∃ s, (rig .empty).ReachIf (PortOk .empty) s ∧ s.calls.length = 1 ∧ ∀ c ∈ s.calls, c.Right := by
  obtain ⟨s, hs, hp⟩ := Machine.exists_reach_of_run (M := (rig .empty).restrict (PortOk .empty))
    (p := fun s => s.calls.length = 1) Rig.fresh_fresh (stepsOf .main 45) (by decide +kernel)
  have hr := Machine.ReachIf.of_restrict hs
  exact ⟨s, hr, by simpa using hp, (accesses_alone hr).2⟩

/-- The first request arrives while `main` sets that register, seven scans into the call: the handler
resets the port and powers it up, and the eighth scan, which should store the word, finds the debug
port selected and stores nothing. -/
theorem handler_in_the_middle :
    (∃ s, (rig .empty).Reach s ∧ s.mid .empty .main = true ∧
      ((s.pc .handler).code .empty).onPort = true ∧
      ((rig .empty).step (.step .handler Answer.empty) s).isSome = true) ∧
    ∃ s, (rig .empty).Reach s ∧ ∃ c ∈ s.calls, ¬ c.Right := by
  constructor
  · obtain ⟨s, hs, hp⟩ := Machine.exists_reach_of_run (M := rig .empty)
      (p := fun s => s.mid .empty .main && ((s.pc .handler).code .empty).onPort &&
        ((rig .empty).step (.step .handler Answer.empty) s).isSome) Rig.fresh_fresh
      (stepsOf .main 44 ++ [.edge] ++ stepsOf .handler 1) (by decide +kernel)
    simp only [Bool.and_eq_true] at hp
    exact ⟨s, hs, hp.1.1, hp.1.2, hp.2⟩
  · obtain ⟨s, hs, hp⟩ := Machine.exists_reach_of_run (M := rig .empty)
      (p := fun s => s.calls.any fun c => match c with
        | .write _ a v _ after => after (wordAlign a) ≠ v
        | _ => false) Rig.fresh_fresh
      (stepsOf .main 44 ++ [.edge] ++ stepsOf .handler 39 ++ stepsOf .main 1) (by decide +kernel)
    obtain ⟨c, hc, hlost⟩ := List.any_eq_true.mp hp
    refine ⟨s, hs, c, hc, fun hright => ?_⟩
    cases c with
    | read => cases hlost
    | write t a v before after =>
      have hafter : after = update before (wordAlign a) v := hright
      simp [hafter] at hlost

end Expedition
