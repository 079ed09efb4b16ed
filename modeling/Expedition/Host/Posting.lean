import Expedition.Host.Discipline

/-!
# A chip that posts when the request word is free

The chip posts a request only when it has read EMPTY_REQ from IO_TYPE: the argument into
READBUF_BEGIN, the code into IO_TYPE, one edge of `req_intr`.  It does not wait for acknowledges.

* `Posting.Slot` — the invariant: which of the chip, the interrupt, the flag and the dispatcher has
  the one request in the slot.
* `posts_read_once` — every posted code is read by `dispatch_loop` exactly once and before it is
  cleared, with its own argument unless a worker wrote READBUF_BEGIN in between.
-/

namespace Expedition

open Function

structure Request where
  code : Word
  arg : Word
  deriving DecidableEq, Repr

/-- The chip: `ready` after it has read EMPTY_REQ. -/
inductive PosterPc where
  | idle
  | ready
  | argued (r : Request)
  | typed (r : Request)
  deriving DecidableEq, Repr

/-- The host with such a chip.  `posts` are the requests posted, newest first.  `clean` says that no
worker has written READBUF_BEGIN since the chip put its last argument there; `argReads` are the
arguments the dispatcher read, each with `clean` at the time; `dispatched` are the services it has
signalled. -/
structure Posting where
  host : Host
  chip : PosterPc
  posts : List Request
  clean : Bool
  argReads : List (Word × Bool)
  dispatched : List Service

inductive PostAct where
  | host (a : HostAct)
  /-- The chip reads IO_TYPE. -/
  | look
  | argue (r : Request)
  | type
  | edge
  /-- The chip writes a word of its own, such as a message in WRITEBUF. -/
  | scribble (a v : Word)
  | takeAck
  deriving DecidableEq, Repr

/-- The step is a write of READBUF_BEGIN by a worker. -/
def HostAct.soils (h : Host) : HostAct → Bool
  | .work k _ =>
    match (h.work k).code k with
    | .writeMemory a _ _ => a = READBUF_BEGIN
    | _ => false
  | _ => false

namespace Posting

/-- The argument reads, after a step of the host. -/
def noteArg (s : Posting) : HostAct → List (Word × Bool)
  | .dispatch _ =>
    match s.host.dispatch with
    | .readVal _ => (s.host.shared.mem READBUF_BEGIN, s.clean) :: s.argReads
    | _ => s.argReads
  | _ => s.argReads

/-- The services signalled, after a step of the host. -/
def noteSignal (s : Posting) : HostAct → List Service
  | .dispatch _ =>
    match s.host.dispatch with
    | .signal svc => svc :: s.dispatched
    | _ => s.dispatched
  | _ => s.dispatched

/-- A step of the host or of the chip. -/
def step : PostAct → Posting → Option Posting
  | .host a, s => (s.host.step a).map fun h =>
      { s with host := h, clean := s.clean && !a.soils s.host, argReads := s.noteArg a,
               dispatched := s.noteSignal a }
  | .look, s =>
    if s.chip = .idle ∧ s.host.shared.mem IO_TYPE = EMPTY_REQ then some { s with chip := .ready }
    else none
  | .argue r, s =>
    if s.chip = .ready ∧ r.code ≠ EMPTY_REQ then
      some { s with chip := .argued r, clean := true,
                    host := ChipAct.apply (.write READBUF_BEGIN r.arg) s.host }
    else none
  | .type, s =>
    match s.chip with
    | .argued r => some { s with chip := .typed r, posts := r :: s.posts,
                                 host := ChipAct.apply (.write IO_TYPE r.code) s.host }
    | _ => none
  | .edge, s =>
    match s.chip with
    | .typed _ => some { s with chip := .idle, host := ChipAct.apply .edge s.host }
    | _ => none
  | .scribble a v, s =>
    if a = IO_TYPE ∨ a = READBUF_BEGIN then none
    else some { s with host := ChipAct.apply (.write a v) s.host }
  | .takeAck, s => some { s with host := ChipAct.apply .takeAck s.host }

/-- The start: the slot is free and the host comes up. -/
structure Fresh (s : Posting) : Prop where
  host : s.host.Fresh
  slot : s.host.shared.mem IO_TYPE = EMPTY_REQ
  chip : s.chip = .idle
  posts : s.posts = []
  argReads : s.argReads = []
  dispatched : s.dispatched = []

def machine : Machine Posting PostAct where
  start := Fresh
  step := step

/-- The codes the dispatcher has read, newest first. -/
def typesRead (log : List Event) : List Word :=
  log.filterMap fun
    | .read .dispatch a v => if a = IO_TYPE then some v else none
    | _ => none

/-- What a step of the chip does to the host is among what any chip may do to it. -/
theorem step_chip {a : PostAct} {s s' : Posting} (ha : ∀ b, a ≠ .host b) (h : step a s = some s') :
    (s'.host = s.host ∨ ∃ c : ChipAct, s'.host = c.apply s.host) ∧ s'.dispatched = s.dispatched := by
  cases a with
  | host b => exact absurd rfl (ha b)
  | look =>
    simp only [step] at h
    split at h
    · cases h; exact ⟨.inl rfl, rfl⟩
    · cases h
  | argue r =>
    simp only [step] at h
    split at h
    · cases h; exact ⟨.inr ⟨.write READBUF_BEGIN r.arg, rfl⟩, rfl⟩
    · cases h
  | type =>
    simp only [step] at h
    split at h
    · rename_i r _
      cases h; exact ⟨.inr ⟨.write IO_TYPE r.code, rfl⟩, rfl⟩
    · cases h
  | edge =>
    simp only [step] at h
    split at h
    · cases h; exact ⟨.inr ⟨.edge, rfl⟩, rfl⟩
    · cases h
  | scribble a v =>
    simp only [step] at h
    split at h
    · cases h
    · cases h; exact ⟨.inr ⟨.write a v, rfl⟩, rfl⟩
  | takeAck => cases h; exact ⟨.inr ⟨.takeAck, rfl⟩, rfl⟩

/-- A step is one of the host, with what is noted of it, or one of the chip. -/
theorem step_cases {a : PostAct} {s s' : Posting} (h : step a s = some s') :
    (∃ b h', a = .host b ∧ s.host.step b = some h' ∧
      s' = { s with host := h', clean := s.clean && !b.soils s.host, argReads := s.noteArg b,
                    dispatched := s.noteSignal b }) ∨ ∀ b, a ≠ .host b := by
  cases a with
  | host b =>
    simp only [step, Option.map_eq_some_iff] at h
    obtain ⟨h', hh, rfl⟩ := h
    exact .inl ⟨b, h', rfl, hh, rfl⟩
  | _ => exact .inr (by simp)

theorem reach_host {ok : PostAct → Posting → Prop} {s : Posting} (h : machine.ReachIf ok s) :
    anyChip.Reach s.host := by
  refine h.simulate (f := Posting.host) (fun _ (hs : Fresh _) => hs.host) fun a s s' hstep => ?_
  rcases step_cases hstep with ⟨b, h', rfl, hh, rfl⟩ | ha
  · exact .inr ⟨.inl b, hh⟩
  · obtain ⟨hsame | ⟨c, hc⟩, -⟩ := step_chip ha hstep
    · exact .inl hsame
    · exact .inr ⟨.inr c, by rw [hc]; rfl⟩

/-! ## The invariant -/

/-- Between its wake-up and its write of EMPTY_REQ. -/
def busy : DispatchPc → Bool
  | .lock | .readType | .readVal _ | .clear _ _ => true
  | _ => false

/-- Awake, with the code still to be read. -/
def fetching : DispatchPc → Bool
  | .lock | .readType => true
  | _ => false

/-- Nothing is on its way to the dispatcher, and it has nothing of the slot in hand. -/
structure Quiet (s : Posting) : Prop where
  irq : s.host.irq = false
  flag : s.host.shared.flag .dispatch = false
  idle : busy s.host.dispatch = false

/-- The request's wake-up is in exactly one place. -/
def OnItsWay (s : Posting) : Prop :=
  (s.host.irq = true ∧ s.host.shared.flag .dispatch = false ∧ busy s.host.dispatch = false) ∨
  (s.host.irq = false ∧ s.host.shared.flag .dispatch = true ∧ busy s.host.dispatch = false) ∨
  (s.host.irq = false ∧ s.host.shared.flag .dispatch = false ∧ fetching s.host.dispatch = true)

/-- The argument is where the chip put it, unless a worker wrote there. -/
def ArgThere (s : Posting) (r : Request) : Prop :=
  s.clean = true → s.host.shared.mem READBUF_BEGIN = r.arg

/-- Arguments read, against the requests they were read for. -/
def ArgsMatch (reads : List (Word × Bool)) (posts : List Request) : Prop :=
  List.Forall₂ (fun x r => x.2 = true → x.1 = r.arg) reads posts

/-- The requests posted so far have all been read, type and argument. -/
structure AllRead (s : Posting) (posts : List Request) : Prop where
  types : posts.map Request.code = typesRead s.host.shared.log
  args : ArgsMatch s.argReads posts
  codes : ∀ r ∈ posts, r.code ≠ EMPTY_REQ

/-- Where the request in the slot is. -/
inductive Slot (s : Posting) : Prop where
  | free (hmem : s.host.shared.mem IO_TYPE = EMPTY_REQ) (hchip : ∀ r, s.chip ≠ .typed r)
      (harg : ∀ r, s.chip = .argued r → r.code ≠ EMPTY_REQ ∧ ArgThere s r) (hq : Quiet s)
      (hread : AllRead s s.posts)
  | posted (r : Request) (l : List Request) (hposts : s.posts = r :: l) (hcode : r.code ≠ EMPTY_REQ)
      (hmem : s.host.shared.mem IO_TYPE = r.code) (hchip : s.chip = .typed r) (harg : ArgThere s r)
      (hq : Quiet s) (hread : AllRead s l)
  | waiting (r : Request) (l : List Request) (hposts : s.posts = r :: l) (hcode : r.code ≠ EMPTY_REQ)
      (hmem : s.host.shared.mem IO_TYPE = r.code) (hchip : s.chip = .idle) (harg : ArgThere s r)
      (hway : OnItsWay s) (hread : AllRead s l)
  | taken (r : Request) (l : List Request) (hposts : s.posts = r :: l) (hcode : r.code ≠ EMPTY_REQ)
      (hmem : s.host.shared.mem IO_TYPE = r.code) (hchip : s.chip = .idle)
      (hirq : s.host.irq = false) (hflag : s.host.shared.flag .dispatch = false)
      (hpc : (s.host.dispatch = .readVal r.code ∧ ArgThere s r ∧ ArgsMatch s.argReads l) ∨
        (∃ v, s.host.dispatch = .clear r.code v) ∧ ArgsMatch s.argReads s.posts)
      (htypes : s.posts.map Request.code = typesRead s.host.shared.log)
      (hcodes : ∀ r ∈ l, r.code ≠ EMPTY_REQ)

/-- The two states look the same from the slot. -/
structure Frame (s s' : Posting) : Prop where
  io : s'.host.shared.mem IO_TYPE = s.host.shared.mem IO_TYPE
  irq : s'.host.irq = s.host.irq
  flag : s'.host.shared.flag .dispatch = s.host.shared.flag .dispatch
  pc : s'.host.dispatch = s.host.dispatch ∨ busy s.host.dispatch = false ∧ busy s'.host.dispatch = false
  chip : s'.chip = s.chip
  posts : s'.posts = s.posts
  argReads : s'.argReads = s.argReads
  types : typesRead s'.host.shared.log = typesRead s.host.shared.log
  arg : ∀ r, ArgThere s r → ArgThere s' r

section Frame

variable {s s' : Posting} (hf : Frame s s')
include hf

theorem Frame.busy_eq : busy s'.host.dispatch = busy s.host.dispatch := by
  rcases hf.pc with h | ⟨h, h'⟩
  · rw [h]
  · rw [h, h']

theorem Frame.fetching_of (h : fetching s.host.dispatch = true) :
    fetching s'.host.dispatch = true := by
  rcases hf.pc with hpc | ⟨hb, -⟩
  · rw [hpc]; exact h
  · revert h hb
    cases s.host.dispatch <;> simp [fetching, busy]

theorem Frame.quiet (h : Quiet s) : Quiet s' :=
  ⟨hf.irq.trans h.irq, hf.flag.trans h.flag, hf.busy_eq.trans h.idle⟩

theorem Frame.onItsWay (h : OnItsWay s) : OnItsWay s' := by
  rcases h with ⟨h₁, h₂, h₃⟩ | ⟨h₁, h₂, h₃⟩ | ⟨h₁, h₂, h₃⟩
  · exact .inl ⟨hf.irq.trans h₁, hf.flag.trans h₂, hf.busy_eq.trans h₃⟩
  · exact .inr (.inl ⟨hf.irq.trans h₁, hf.flag.trans h₂, hf.busy_eq.trans h₃⟩)
  · exact .inr (.inr ⟨hf.irq.trans h₁, hf.flag.trans h₂, hf.fetching_of h₃⟩)

theorem Frame.allRead {l : List Request} (h : AllRead s l) : AllRead s' l :=
  ⟨h.types.trans hf.types.symm, by rw [hf.argReads]; exact h.args, h.codes⟩

theorem Slot.frame (h : Slot s) : Slot s' := by
  cases h with
  | free hmem hchip harg hq hread =>
    refine .free (hf.io.trans hmem) (by rw [hf.chip]; exact hchip) (fun r hr => ?_) (hf.quiet hq) ?_
    · rw [hf.chip] at hr
      exact ⟨(harg r hr).1, hf.arg r (harg r hr).2⟩
    · rw [hf.posts]
      exact hf.allRead hread
  | posted r l hposts hcode hmem hchip harg hq hread =>
    exact .posted r l (hf.posts.trans hposts) hcode (hf.io.trans hmem) (hf.chip.trans hchip)
      (hf.arg r harg) (hf.quiet hq) (hf.allRead hread)
  | waiting r l hposts hcode hmem hchip harg hway hread =>
    exact .waiting r l (hf.posts.trans hposts) hcode (hf.io.trans hmem) (hf.chip.trans hchip)
      (hf.arg r harg) (hf.onItsWay hway) (hf.allRead hread)
  | taken r l hposts hcode hmem hchip hirq hflag hpc htypes hcodes =>
    have hsame : s'.host.dispatch = s.host.dispatch := by
      rcases hf.pc with h | ⟨hb, -⟩
      · exact h
      · rcases hpc with ⟨hd, -⟩ | ⟨⟨v, hd⟩, -⟩ <;> rw [hd] at hb <;> cases hb
    refine .taken r l (hf.posts.trans hposts) hcode (hf.io.trans hmem) (hf.chip.trans hchip)
      (hf.irq.trans hirq) (hf.flag.trans hflag) ?_ ?_ hcodes
    · rw [hsame, hf.argReads, hf.posts]
      rcases hpc with ⟨hd, ha, hm⟩ | h
      · exact .inl ⟨hd, hf.arg r ha, hm⟩
      · exact .inr h
    · rw [hf.posts, hf.types]
      exact htypes

end Frame

/-! ## Steps of the host -/

theorem exec_typesRead {P : Type} {t : Thread} {ans : Answer} {s s' : Shared} {i : Instr P} {p : P}
    (h : i.exec t ans s = some (s', p))
    (hi : t ≠ .dispatch ∨ ∀ q, i ≠ .readMemory IO_TYPE q) : typesRead s'.log = typesRead s.log := by
  cases i with
  | signal_wait n =>
    obtain ⟨-, rfl, -⟩ := Instr.exec_signal_wait h
    rfl
  | lock m n =>
    obtain ⟨_, -, rfl, -⟩ := Instr.exec_lock h
    rfl
  | readMemory a n =>
    cases h
    rcases hi with ht | ha
    · cases t <;> first | rfl | exact absurd rfl ht
    · have hne : a ≠ IO_TYPE := fun e => ha n (by rw [e])
      cases t <;> simp [typesRead, hne]
  | ack_intr b n => cases b <;> (cases h; rfl)
  | _ => cases h <;> rfl

/-- A worker's step is not seen from the slot. -/
theorem frame_work {s : Posting} {k : Worker} {ans : Answer} {h : Host} (hpl : s.host.Placed)
    (hs : s.host.step (.work k ans) = some h) :
    Frame s { s with host := h, clean := s.clean && !HostAct.soils s.host (.work k ans),
                     argReads := s.noteArg (.work k ans), dispatched := s.noteSignal (.work k ans) } := by
  simp only [Host.step, Option.map_eq_some_iff] at hs
  obtain ⟨⟨sh, p⟩, he, rfl⟩ := hs
  refine ⟨?_, rfl, ?_, .inl rfl, rfl, rfl, rfl, ?_, fun r hr hclean => ?_⟩
  · exact Instr.exec_mem IO_TYPE he fun v q hq => (hpl k).write_ne hq rfl
  · exact Instr.exec_flag .dispatch he (by simp) (WorkPc.code_ne_signal _ _)
  · exact exec_typesRead he (.inl (by simp))
  · simp only [Bool.and_eq_true, Bool.not_eq_true'] at hclean
    rw [← hr hclean.1]
    refine Instr.exec_mem READBUF_BEGIN he fun v q hq => ?_
    have hsoil := hclean.2
    simp [HostAct.soils, hq] at hsoil

/-- A dispatcher step outside its critical part is not seen either. -/
theorem frame_dispatch {s : Posting} {ans : Answer} {sh : Shared} {p : DispatchPc}
    (he : s.host.dispatch.code.exec .dispatch ans s.host.shared = some (sh, p))
    (hb : busy s.host.dispatch = false) (hw : s.host.dispatch ≠ .wait) :
    Frame s { s with host := { s.host with shared := sh, dispatch := p },
                     clean := s.clean && !HostAct.soils s.host (.dispatch ans),
                     argReads := s.noteArg (.dispatch ans), dispatched := s.noteSignal (.dispatch ans) } := by
  have hmem : ∀ a, sh.mem a = s.host.shared.mem a := by
    intro a
    refine Instr.exec_mem a he fun v q hq => ?_
    revert hb hq
    cases s.host.dispatch <;> simp [busy, DispatchPc.code]
  have hbusy : busy p = false := by
    have hnext := Instr.exec_next he
    revert hb hw hnext
    cases s.host.dispatch with
    | unlock type val =>
      rintro - - rfl
      unfold DispatchPc.switch
      split <;> rfl
    | storeType svc val =>
      rintro - - rfl
      split <;> rfl
    | print type =>
      rintro - - ⟨ans, rfl⟩
      rfl
    | storeArg | signal | printLock | printUnlock => rintro - - rfl; rfl
    | wait => intro _ h; exact absurd rfl h
    | _ => intro h; cases h
  have hflag : sh.flag .dispatch = s.host.shared.flag .dispatch := by
    revert he hb hw
    cases s.host.dispatch with
    | printLock type =>
      intro he _ _
      obtain ⟨l, -, rfl, -⟩ := Instr.exec_lock he
      rfl
    | signal svc => intro he _ _; cases he; simp
    | unlock | storeType | storeArg | print | printUnlock => intro he _ _; cases he; rfl
    | wait => intro _ _ h; exact absurd rfl h
    | _ => intro _ h; cases h
  refine ⟨hmem _, rfl, hflag, .inr ⟨hb, hbusy⟩, rfl, rfl, ?_, ?_, fun r hr hclean => ?_⟩
  · revert hb
    cases hd : s.host.dispatch <;> simp [busy, noteArg, hd]
  · refine exec_typesRead he (.inr fun q hq => ?_)
    revert hb hq
    cases s.host.dispatch <;> simp [busy, DispatchPc.code]
  · show sh.mem READBUF_BEGIN = r.arg
    rw [hmem]
    exact hr (by simpa [HostAct.soils] using hclean)

/-- A request in the slot that the dispatcher has not begun to read. -/
structure Unread (s : Posting) (r : Request) (l : List Request) : Prop where
  posts : s.posts = r :: l
  code : r.code ≠ EMPTY_REQ
  mem : s.host.shared.mem IO_TYPE = r.code
  chip : s.chip = .idle
  arg : ArgThere s r
  read : AllRead s l
  irq : s.host.irq = false

/-- The dispatcher's flag is the wake-up of a request. -/
theorem Slot.woken {s : Posting} (hs : Slot s) (hflag : s.host.shared.flag .dispatch = true) :
    ∃ r l, Unread s r l := by
  cases hs with
  | free _ _ _ hq _ => exact absurd (hq.flag.symm.trans hflag) (by simp)
  | posted _ _ _ _ _ _ _ hq _ => exact absurd (hq.flag.symm.trans hflag) (by simp)
  | taken _ _ _ _ _ _ _ hf => exact absurd (hf.symm.trans hflag) (by simp)
  | waiting r l hposts hcode hmem hchip harg hway hread =>
    rcases hway with ⟨-, hf, -⟩ | ⟨hirq, -, -⟩ | ⟨-, hf, -⟩
    · exact absurd (hf.symm.trans hflag) (by simp)
    · exact ⟨r, l, hposts, hcode, hmem, hchip, harg, hread, hirq⟩
    · exact absurd (hf.symm.trans hflag) (by simp)

/-- Awake, the dispatcher has a request to read. -/
theorem Slot.awake {s : Posting} (hs : Slot s) (hpc : fetching s.host.dispatch = true) :
    ∃ r l, Unread s r l ∧ s.host.shared.flag .dispatch = false := by
  have hbusy : busy s.host.dispatch = true := by
    revert hpc
    cases s.host.dispatch <;> simp [fetching, busy]
  cases hs with
  | free _ _ _ hq _ => exact absurd (hq.idle.symm.trans hbusy) (by simp)
  | posted _ _ _ _ _ _ _ hq _ => exact absurd (hq.idle.symm.trans hbusy) (by simp)
  | taken _ _ _ _ _ _ _ _ hd =>
    rcases hd with ⟨hd, -⟩ | ⟨⟨v, hd⟩, -⟩
    · rw [hd] at hpc; cases hpc
    · rw [hd] at hpc; cases hpc
  | waiting r l hposts hcode hmem hchip harg hway hread =>
    rcases hway with ⟨-, -, hb⟩ | ⟨-, -, hb⟩ | ⟨hirq, hf, -⟩
    · exact absurd (hb.symm.trans hbusy) (by simp)
    · exact absurd (hb.symm.trans hbusy) (by simp)
    · exact ⟨r, l, ⟨hposts, hcode, hmem, hchip, harg, hread, hirq⟩, hf⟩

/-- With the code in hand, it is that of the request in the slot. -/
theorem Slot.holding {s : Posting} (hs : Slot s) (hbusy : busy s.host.dispatch = true)
    (hpc : fetching s.host.dispatch = false) :
    ∃ r l, s.posts = r :: l ∧ r.code ≠ EMPTY_REQ ∧ s.host.shared.mem IO_TYPE = r.code ∧ s.chip = .idle ∧
      s.host.irq = false ∧ s.host.shared.flag .dispatch = false ∧
      ((s.host.dispatch = .readVal r.code ∧ ArgThere s r ∧ ArgsMatch s.argReads l) ∨
        (∃ v, s.host.dispatch = .clear r.code v) ∧ ArgsMatch s.argReads s.posts) ∧
      s.posts.map Request.code = typesRead s.host.shared.log ∧ ∀ r ∈ l, r.code ≠ EMPTY_REQ := by
  cases hs with
  | free _ _ _ hq _ => exact absurd (hq.idle.symm.trans hbusy) (by simp)
  | posted _ _ _ _ _ _ _ hq _ => exact absurd (hq.idle.symm.trans hbusy) (by simp)
  | waiting _ _ _ _ _ _ _ hway _ =>
    rcases hway with ⟨-, -, hb⟩ | ⟨-, -, hb⟩ | ⟨-, -, hb⟩
    · exact absurd (hb.symm.trans hbusy) (by simp)
    · exact absurd (hb.symm.trans hbusy) (by simp)
    · exact absurd (hb.symm.trans hpc) (by simp)
  | taken r l hposts hcode hmem hchip hirq hf hd htypes hcodes =>
    exact ⟨r, l, hposts, hcode, hmem, hchip, hirq, hf, hd, htypes, hcodes⟩

/-- The dispatcher in its critical part: it reads the code, its argument, and frees the slot. -/
theorem Slot.dispatch {s : Posting} {ans : Answer} {h : Host} (hs : Slot s)
    (he : s.host.step (.dispatch ans) = some h) :
    Slot { s with host := h, clean := s.clean && !HostAct.soils s.host (.dispatch ans),
                  argReads := s.noteArg (.dispatch ans),
                  dispatched := s.noteSignal (.dispatch ans) } := by
  simp only [Host.step, Option.map_eq_some_iff] at he
  obtain ⟨⟨sh, p⟩, he, rfl⟩ := he
  by_cases hout : busy s.host.dispatch = false ∧ s.host.dispatch ≠ .wait
  · exact hs.frame (frame_dispatch he hout.1 hout.2)
  · obtain ⟨host, chip, posts, clean, argReads, dispatched⟩ := s
    obtain ⟨shared, pc, work, irq⟩ := host
    cases pc with
    | wait =>
      -- woken: the flag was the request's wake-up
      obtain ⟨hflag, rfl, rfl⟩ := Instr.exec_signal_wait he
      obtain ⟨r, l, hr⟩ := hs.woken hflag
      exact .waiting r l hr.posts hr.code hr.mem hr.chip
        (fun hc => hr.arg (by simpa [HostAct.soils] using hc)) (.inr (.inr ⟨hr.irq, by simp, rfl⟩))
        ⟨hr.read.types, hr.read.args, hr.read.codes⟩
    | lock =>
      obtain ⟨m, -, rfl, rfl⟩ := Instr.exec_lock he
      obtain ⟨r, l, hr, hf⟩ := hs.awake rfl
      exact .waiting r l hr.posts hr.code hr.mem hr.chip
        (fun hc => hr.arg (by simpa [HostAct.soils] using hc)) (.inr (.inr ⟨hr.irq, hf, rfl⟩))
        ⟨hr.read.types, hr.read.args, hr.read.codes⟩
    | readType =>
      cases he
      obtain ⟨r, l, hr, hf⟩ := hs.awake rfl
      -- the code in the slot is the posted one
      have hmem : shared.mem IO_TYPE = r.code := hr.mem
      refine .taken r l hr.posts hr.code hr.mem hr.chip hr.irq hf (.inl ⟨?_, ?_, hr.read.args⟩) ?_
        hr.read.codes
      · simp only [hmem]
      · exact fun hc => hr.arg (by simpa [HostAct.soils] using hc)
      · show posts.map Request.code = shared.mem IO_TYPE :: typesRead shared.log
        rw [hmem, show posts = r :: l from hr.posts, List.map_cons, hr.read.types]
    | readVal type =>
      cases he
      obtain ⟨r, l, hposts, hcode, hmem, hchip, hirq, hf, hpc, htypes, hcodes⟩ := hs.holding rfl rfl
      rcases hpc with ⟨hd, harg, hargs⟩ | ⟨⟨v, hd⟩, -⟩
      · cases hd
        refine .taken r l hposts hcode hmem hchip hirq hf (.inr ⟨⟨_, rfl⟩, ?_⟩) htypes hcodes
        show ArgsMatch ((shared.mem READBUF_BEGIN, clean) :: argReads) posts
        rw [show posts = r :: l from hposts]
        exact .cons harg hargs
      · cases hd
    | clear type val =>
      cases he
      obtain ⟨r, l, hposts, hcode, hmem, hchip, hirq, hf, hpc, htypes, hcodes⟩ := hs.holding rfl rfl
      rcases hpc with ⟨hd, -⟩ | ⟨-, hargs⟩
      · cases hd
      · have hidle : chip = .idle := hchip
        refine .free (update_self IO_TYPE EMPTY_REQ shared.mem) (by simp [hidle]) (by simp [hidle])
          ⟨hirq, hf, rfl⟩ ⟨htypes, hargs, ?_⟩
        rw [show posts = r :: l from hposts]
        exact List.forall_mem_cons.mpr ⟨hcode, hcodes⟩
    | _ => exact absurd ⟨rfl, by simp⟩ hout

theorem Slot.handler {s : Posting} {h : Host} (hs : Slot s) (he : s.host.step .handler = some h) :
    Slot { s with host := h, clean := s.clean && !HostAct.soils s.host .handler,
                  argReads := s.noteArg .handler, dispatched := s.noteSignal .handler } := by
  simp only [Host.step] at he
  split at he
  · rename_i hirq
    cases he
    cases hs with
    | free _ _ _ hq _ => exact absurd (hq.irq.symm.trans hirq) (by simp)
    | posted _ _ _ _ _ _ _ hq _ => exact absurd (hq.irq.symm.trans hirq) (by simp)
    | taken _ _ _ _ _ _ hi => exact absurd (hi.symm.trans hirq) (by simp)
    | waiting r l hposts hcode hmem hchip harg hway hread =>
      rcases hway with ⟨-, -, hb⟩ | ⟨hi, -⟩ | ⟨hi, -⟩
      · exact .waiting r l hposts hcode hmem hchip (fun hc => harg (by simpa [HostAct.soils] using hc))
          (.inr (.inl ⟨rfl, update_self Thread.dispatch true s.host.shared.flag, hb⟩)) ⟨hread.types, hread.args, hread.codes⟩
      · exact absurd (hi.symm.trans hirq) (by simp)
      · exact absurd (hi.symm.trans hirq) (by simp)
  · cases he

/-! ## Steps of the chip -/

/-- The slot is free while the chip is between looking and typing, and where it looks empty. -/
theorem Slot.vacant {s : Posting} (hs : Slot s) (htyped : ∀ r, s.chip ≠ .typed r)
    (h : s.chip ≠ .idle ∨ s.host.shared.mem IO_TYPE = EMPTY_REQ) :
    s.host.shared.mem IO_TYPE = EMPTY_REQ ∧
      (∀ r, s.chip = .argued r → r.code ≠ EMPTY_REQ ∧ ArgThere s r) ∧ Quiet s ∧ AllRead s s.posts := by
  cases hs with
  | free hmem _ harg hq hread => exact ⟨hmem, harg, hq, hread⟩
  | posted r _ _ _ _ hchip => exact absurd hchip (htyped r)
  | waiting r _ _ hcode hmem hchip =>
    rcases h with h | h
    · exact absurd hchip h
    · exact absurd (hmem.symm.trans h) hcode
  | taken r _ _ hcode hmem hchip =>
    rcases h with h | h
    · exact absurd hchip h
    · exact absurd (hmem.symm.trans h) hcode

theorem Slot.chip {s s' : Posting} {a : PostAct} (hs : Slot s) (ha : ∀ b, a ≠ .host b)
    (h : step a s = some s') : Slot s' := by
  obtain ⟨host, chip, posts, clean, argReads, dispatched⟩ := s
  cases a with
  | host b => exact absurd rfl (ha b)
  | look =>
    simp only [step] at h
    split at h
    · rename_i hguard
      obtain ⟨rfl, hempty⟩ := hguard
      cases h
      obtain ⟨hmem, -, hq, hread⟩ := hs.vacant (by simp) (.inr hempty)
      exact .free hmem (by simp) (by simp) ⟨hq.irq, hq.flag, hq.idle⟩
        ⟨hread.types, hread.args, hread.codes⟩
    · cases h
  | argue r =>
    simp only [step] at h
    split at h
    · rename_i hguard
      obtain ⟨rfl, hcode⟩ := hguard
      cases h
      obtain ⟨hmem, -, hq, hread⟩ := hs.vacant (by simp) (.inl (by simp))
      refine .free ?_ (by simp) (fun r' hr' => ?_) ⟨hq.irq, hq.flag, hq.idle⟩
        ⟨hread.types, hread.args, hread.codes⟩
      · exact (ChipAct.write_mem_ne r.arg host (by decide)).trans hmem
      · cases hr'
        exact ⟨hcode, fun _ => ChipAct.write_mem_self READBUF_BEGIN r.arg host⟩
    · cases h
  | type =>
    cases chip with
    | argued r =>
      cases h
      obtain ⟨-, harg, hq, hread⟩ := hs.vacant (by simp) (.inl (by simp))
      obtain ⟨hcode, hthere⟩ := harg r rfl
      refine .posted r posts rfl hcode (ChipAct.write_mem_self IO_TYPE r.code host) rfl
        (fun hc => ?_) ⟨hq.irq, hq.flag, hq.idle⟩ ⟨hread.types, hread.args, hread.codes⟩
      exact (ChipAct.write_mem_ne r.code host (by decide)).trans (hthere hc)
    | _ => cases h
  | edge =>
    cases chip with
    | typed r =>
      cases h
      cases hs with
      | free _ hchip => exact absurd rfl (hchip r)
      | posted r' l hposts hcode hmem hchip harg hq hread =>
        exact .waiting r' l hposts hcode hmem rfl harg (.inl ⟨rfl, hq.flag, hq.idle⟩)
          ⟨hread.types, hread.args, hread.codes⟩
      | waiting _ _ _ _ _ hchip => cases hchip
      | taken _ _ _ _ _ hchip => cases hchip
    | _ => cases h
  | scribble a v =>
    simp only [step] at h
    split at h
    · cases h
    · rename_i hguard
      cases h
      refine Slot.frame (s := ⟨host, chip, posts, clean, argReads, dispatched⟩)
        ⟨?_, rfl, rfl, .inl rfl, rfl, rfl, rfl, rfl, fun r hr hc => ?_⟩ hs
      · exact ChipAct.write_mem_ne v host fun e => hguard (.inl e.symm)
      · exact (ChipAct.write_mem_ne v host fun e => hguard (.inr e.symm)).trans (hr hc)
  | takeAck =>
    cases h
    exact Slot.frame (s := ⟨host, chip, posts, clean, argReads, dispatched⟩)
      ⟨rfl, rfl, rfl, .inl rfl, rfl, rfl, rfl, rfl, fun _ hr => hr⟩ hs

theorem slot {ok : PostAct → Posting → Prop} {s : Posting} (h : machine.ReachIf ok s) : Slot s := by
  refine h.invariant_of (J := fun s => s.host.Placed) (I := Slot)
    (fun s hr => workers_placed (reach_host hr)) (fun s (hf : s.Fresh) => ?_) ?_
  · refine .free hf.slot (by simp [hf.chip]) (by simp [hf.chip]) ?_ ?_
    · exact ⟨hf.host.irq, hf.host.flag _, by rw [hf.host.dispatch]; rfl⟩
    · rw [hf.posts]
      exact ⟨by rw [hf.host.log]; rfl, by rw [hf.argReads]; exact .nil, by simp⟩
  · intro a s s' hpl hs _ hstep
    rcases step_cases hstep with ⟨b, h', rfl, hh, rfl⟩ | ha
    · cases b with
      | handler => exact hs.handler hh
      | dispatch ans => exact hs.dispatch hh
      | work k ans => exact hs.frame (frame_work hpl hh)
    · exact hs.chip ha hstep

/-! ## From codes to signals -/

/-- The service the dispatcher has read a request for and not signalled yet. -/
def inHand : DispatchPc → List Service
  | .readVal t | .clear t _ | .unlock t _ => (requestService t).toList
  | .storeType svc _ | .storeArg svc _ | .signal svc => [svc]
  | _ => []

/-- The services signalled are those of the codes read, once each and in order. -/
def Handed (s : Posting) : Prop :=
  (typesRead s.host.shared.log).filterMap requestService = inHand s.host.dispatch ++ s.dispatched

theorem inHand_switch (type val : Word) :
    inHand (.switch type val) = (requestService type).toList := by
  unfold DispatchPc.switch
  split
  · rename_i h; rw [h]; rfl
  · rename_i h; rw [h]; rfl
  · rename_i h; rw [h]; rfl

theorem Handed.dispatch {s : Posting} {ans : Answer} {h : Host} (hs : Handed s)
    (he : s.host.step (.dispatch ans) = some h) :
    Handed { s with host := h, clean := s.clean && !HostAct.soils s.host (.dispatch ans),
                    argReads := s.noteArg (.dispatch ans),
                    dispatched := s.noteSignal (.dispatch ans) } := by
  simp only [Host.step, Option.map_eq_some_iff] at he
  obtain ⟨⟨sh, p⟩, he, rfl⟩ := he
  obtain ⟨host, chip, posts, clean, argReads, dispatched⟩ := s
  obtain ⟨shared, pc, work, irq⟩ := host
  have hs' : (typesRead shared.log).filterMap requestService = inHand pc ++ dispatched := hs
  unfold Handed
  cases pc with
  | wait =>
    obtain ⟨-, rfl, rfl⟩ := Instr.exec_signal_wait he
    exact hs'
  | lock =>
    obtain ⟨m, -, rfl, rfl⟩ := Instr.exec_lock he
    exact hs'
  | printLock type =>
    obtain ⟨m, -, rfl, rfl⟩ := Instr.exec_lock he
    exact hs'
  | readType =>
    cases he
    show (shared.mem IO_TYPE :: typesRead shared.log).filterMap requestService =
      (requestService (shared.mem IO_TYPE)).toList ++ dispatched
    rw [List.filterMap_cons, hs']
    cases requestService (shared.mem IO_TYPE) <;> rfl
  | unlock type val =>
    cases he
    show _ = inHand (.switch type val) ++ dispatched
    rw [inHand_switch]
    exact hs'
  | storeType svc val =>
    cases he
    show _ = inHand (if svc.argVar.isSome then .storeArg svc val else .signal svc) ++ dispatched
    split <;> exact hs'
  | _ => cases he; exact hs'

theorem handed {ok : PostAct → Posting → Prop} {s : Posting} (h : machine.ReachIf ok s) :
    Handed s := by
  refine h.invariant (I := Handed) (fun s (hf : s.Fresh) => ?_) ?_
  · unfold Handed
    rw [hf.host.log, hf.host.dispatch, hf.dispatched]
    rfl
  · intro a s s' hs _ hstep
    rcases step_cases hstep with ⟨b, h', rfl, hh, rfl⟩ | ha
    · cases b with
      | handler =>
        simp only [Host.step] at hh
        split at hh
        · cases hh; exact hs
        · cases hh
      | dispatch ans => exact hs.dispatch hh
      | work k ans =>
        simp only [Host.step, Option.map_eq_some_iff] at hh
        obtain ⟨⟨sh, p⟩, he, rfl⟩ := hh
        unfold Handed
        rw [show typesRead _ = _ from exec_typesRead he (.inl (by simp))]
        exact hs
    · obtain ⟨hsame | ⟨c, hc⟩, hd⟩ := step_chip ha hstep
      · unfold Handed
        rw [hsame, hd]
        exact hs
      · unfold Handed
        rw [hc, hd]
        cases c <;> exact hs

/-! ## The result -/

/-- What `dispatch_loop` has made of the requests posted so far (newest first). -/
structure ReadOnce (s : Posting) : Prop where
  /-- The codes read are the codes posted, in order; at most the newest is still to be read. -/
  once : ∃ unread read, s.posts = unread ++ read ∧ unread.length ≤ 1 ∧
    read.map Request.code = typesRead s.host.shared.log
  /-- Where the slot is about to be cleared, every posted code has been read, the one in it last. -/
  notOverwritten : ∀ type val, s.host.dispatch = .clear type val →
    s.posts.map Request.code = typesRead s.host.shared.log ∧ s.host.shared.mem IO_TYPE = type
  neverEmpty : EMPTY_REQ ∉ typesRead s.host.shared.log
  /-- The arguments read are those of the same requests, unless a worker wrote READBUF_BEGIN. -/
  arguments : ∃ unread read, s.posts = unread ++ read ∧ unread.length ≤ 1 ∧ ArgsMatch s.argReads read
  /-- Each code read is dispatched once, to its own service, if it has one. -/
  dispatchedOnce :
    (typesRead s.host.shared.log).filterMap requestService = inHand s.host.dispatch ++ s.dispatched
  /-- With nothing on its way to the dispatcher, nothing is unread. -/
  allRead : Quiet s → (∀ r, s.chip ≠ .typed r) →
    s.posts.map Request.code = typesRead s.host.shared.log

theorem AllRead.neverEmpty {s : Posting} {l : List Request} (h : AllRead s l) :
    EMPTY_REQ ∉ typesRead s.host.shared.log := by
  rw [← h.types]
  intro hmem
  obtain ⟨r, hr, he⟩ := List.mem_map.mp hmem
  exact h.codes r hr he

/-- While one request is in the slot, the older ones have all been read. -/
theorem AllRead.readOnce {s : Posting} {r : Request} {l : List Request} (hposts : s.posts = r :: l)
    (h : AllRead s l) (hd : Handed s) (hclear : ∀ t v, s.host.dispatch ≠ .clear t v)
    (hbusy : Quiet s → ∃ r, s.chip = .typed r) : ReadOnce s where
  once := ⟨[r], l, hposts, Nat.le_refl _, h.types⟩
  notOverwritten t v hpc := absurd hpc (hclear t v)
  neverEmpty := h.neverEmpty
  arguments := ⟨[r], l, hposts, Nat.le_refl _, h.args⟩
  dispatchedOnce := hd
  allRead hq hchip := by
    obtain ⟨r', hr'⟩ := hbusy hq
    exact absurd hr' (hchip r')

/-- **Every post is read exactly once and before it is cleared**, in every order of the chip's, the
handler's, the dispatcher's and the workers' steps: none is overwritten, none dispatched twice,
EMPTY_REQ is never read, and the argument read with a code is its own as long as no worker writes
READBUF_BEGIN. -/
theorem posts_read_once {s : Posting} (hr : machine.Reach s) : ReadOnce s := by
  have hd := handed hr
  cases slot hr with
  | free hmem hchip harg hq hread =>
    refine ⟨⟨[], s.posts, rfl, Nat.zero_le _, hread.types⟩, fun t v hpc => ?_, hread.neverEmpty,
      ⟨[], s.posts, rfl, Nat.zero_le _, hread.args⟩, hd, fun _ _ => hread.types⟩
    have hb := hq.idle
    rw [hpc] at hb
    cases hb
  | posted r l hposts hcode hmem hchip harg hq hread =>
    refine hread.readOnce hposts hd (fun t v hpc => ?_) fun _ => ⟨r, hchip⟩
    have hb := hq.idle
    rw [hpc] at hb
    cases hb
  | waiting r l hposts hcode hmem hchip harg hway hread =>
    refine hread.readOnce hposts hd (fun t v hpc => ?_) fun hq => ?_
    · rcases hway with ⟨-, -, hb⟩ | ⟨-, -, hb⟩ | ⟨-, -, hb⟩ <;> rw [hpc] at hb <;> cases hb
    · rcases hway with ⟨hi, -, -⟩ | ⟨-, hf, -⟩ | ⟨-, -, hb⟩
      · exact absurd (hq.irq.symm.trans hi) (by simp)
      · exact absurd (hq.flag.symm.trans hf) (by simp)
      · have hidle := hq.idle
        revert hb hidle
        cases s.host.dispatch <;> simp [fetching, busy]
  | taken r l hposts hcode hmem hchip hirq hflag hpc htypes hcodes =>
    refine ⟨⟨[], s.posts, rfl, Nat.zero_le _, htypes⟩, fun t v hd => ⟨htypes, ?_⟩, ?_, ?_, hd,
      fun _ _ => htypes⟩
    · rcases hpc with ⟨hpc, -⟩ | ⟨⟨v', hpc⟩, -⟩
      · rw [hpc] at hd; cases hd
      · rw [hpc] at hd; cases hd; exact hmem
    · rw [← htypes, hposts]
      intro hmem'
      obtain ⟨r', hr', he⟩ := List.mem_map.mp hmem'
      rcases List.mem_cons.mp hr' with rfl | hl
      · exact hcode he
      · exact hcodes r' hl he
    · rcases hpc with ⟨-, -, hargs⟩ | ⟨-, hargs⟩
      · exact ⟨[r], l, hposts, Nat.le_refl _, hargs⟩
      · exact ⟨[], s.posts, rfl, Nat.zero_le _, hargs⟩

/-- The host comes up in front of a chip with the given memory and a free slot. -/
def fresh (mem : Word → Word) : Posting where
  host := Host.fresh (update mem IO_TYPE EMPTY_REQ) false false
  chip := .idle
  posts := []
  clean := false
  argReads := []
  dispatched := []

theorem fresh_fresh (mem : Word → Word) : (fresh mem).Fresh :=
  ⟨Host.fresh_fresh _ _ _, by simp [fresh, Host.fresh], rfl, rfl, rfl, rfl⟩

/-- One post by the chip. -/
def post (r : Request) : List PostAct := [.look, .argue r, .type, .edge]

/-- The handler and one round of the dispatcher, for a service without an argument. -/
def dispatchRound : List PostAct :=
  .host .handler :: List.replicate 8 (.host (.dispatch .empty))

theorem posts_read_once_two :
    ∃ s, machine.Reach s ∧ typesRead s.host.shared.log = [ENET_SEND_REQ, TERM_PRINT_REQ] ∧
      ReadOnce s := by
  obtain ⟨s, hr, hs⟩ := Machine.exists_reach_of_run (M := machine)
    (p := fun s => decide (typesRead s.host.shared.log = [ENET_SEND_REQ, TERM_PRINT_REQ]))
    (fresh_fresh fun _ => 0)
    (post ⟨TERM_PRINT_REQ, 5⟩ ++ dispatchRound ++ post ⟨ENET_SEND_REQ, 7⟩ ++ dispatchRound) (by decide)
  exact ⟨s, hr, of_decide_eq_true hs, posts_read_once hr⟩

end Posting

end Expedition
