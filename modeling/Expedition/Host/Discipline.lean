import Expedition.Host.Loops
import Mathlib.Data.List.TakeWhile

/-!
# The discipline of the loops

What the code of the loops keeps to, whatever the chip does:

* `Guards` — how a piece of code relates to a mutex; `dispatch_guards` and `work_guards` are the
  sections of the four mutexes, and every memory write of the loops lies in one of `JTAG_mutex`.
* `lock_sections` — a mutex is held by a thread exactly while its program counter is in such a
  section.
* `types_set` — a worker that is signalled or woken finds a type its `switch` knows, so no loop is
  in its panic branch.
-/

namespace Expedition

open Function

/-! ## Instructions -/

section Instr

variable {P : Type}

/-- `q` is where the instruction may lead. -/
def Instr.Next : Instr P → P → Prop
  | .signal_wait n, q | .signal_set _ n, q | .lock _ n, q | .unlock _ n, q | .writeMemory _ _ n, q
  | .reset n, q | .store _ _ n, q | .ack_intr _ n, q | .call _ _ n, q | .ret _ n, q
  | .terminate _ n, q | .power_down n, q => q = n
  | .readMemory _ n, q | .scans _ n, q | .load _ n, q => ∃ v, q = n v
  | .outside _ n, q => ∃ ans, q = n ans
  | .panic _, _ | .done, _ => False

/-- How the code relates to the mutex `m`: of the program counters in `ok`, those in `sec` are the
ones that hold it. -/
structure Guards (m : Lock) (code : P → Instr P) (ok : P → Prop) (sec : P → Bool) : Prop where
  enter : ∀ p n, ok p → code p = .lock m n → sec p = false ∧ sec n = true
  leave : ∀ p n, ok p → code p = .unlock m n → sec p = true ∧ sec n = false
  stay : ∀ p q, ok p → (∀ n, code p ≠ .lock m n) → (∀ n, code p ≠ .unlock m n) → (code p).Next q →
    sec q = sec p

variable {t : Thread} {ans : Answer} {s s' : Shared} {i : Instr P} {p : P}

theorem Instr.exec_next (h : i.exec t ans s = some (s', p)) : i.Next p := by
  cases i with
  | signal_wait n =>
    simp only [exec] at h
    split at h
    · cases h; rfl
    · cases h
  | lock m n =>
    simp only [exec, Option.map_eq_some_iff, Prod.mk.injEq] at h
    obtain ⟨_, _, _, rfl⟩ := h
    rfl
  | ack_intr b n => cases b <;> (cases h; rfl)
  | readMemory a n => cases h; exact ⟨_, rfl⟩
  | load a n => cases h; exact ⟨_, rfl⟩
  | outside a n => cases h; exact ⟨_, rfl⟩
  | _ => cases h <;> rfl

/-- A lock that succeeds. -/
theorem Instr.exec_lock {m : Lock} {n : P} (h : (Instr.lock m n).exec t ans s = some (s', p)) :
    ∃ l, (s.mutex m).lock t = some l ∧ s' = { s with mutex := update s.mutex m l } ∧ p = n := by
  simp only [exec, Option.map_eq_some_iff, Prod.mk.injEq] at h
  obtain ⟨l, hl, hs, hn⟩ := h
  exact ⟨l, hl, hs.symm, hn.symm⟩

/-- A wait that returns. -/
theorem Instr.exec_signal_wait {n : P} (h : (Instr.signal_wait n).exec t ans s = some (s', p)) :
    s.flag t = true ∧ s' = { s with flag := update s.flag t false,
                                    iter := update s.iter t (s.iter t + 1) } ∧ p = n := by
  simp only [exec] at h
  split at h
  · rename_i hf
    cases h
    exact ⟨hf, rfl, rfl⟩
  · cases h

/-- Only lock and unlock change a mutex. -/
theorem Instr.exec_mutex (m : Lock) (h : i.exec t ans s = some (s', p))
    (hlock : ∀ n, i ≠ .lock m n) (hunlock : ∀ n, i ≠ .unlock m n) : s'.mutex m = s.mutex m := by
  cases i with
  | signal_wait n =>
    obtain ⟨-, rfl, -⟩ := exec_signal_wait h
    rfl
  | lock m' n =>
    obtain ⟨_, -, rfl, -⟩ := exec_lock h
    exact update_of_ne (fun e => hlock n (by rw [e])) _ _
  | unlock m' n =>
    cases h
    exact update_of_ne (fun e => hunlock _ (by rw [e])) _ _
  | ack_intr b n => cases b <;> (cases h; rfl)
  | _ => cases h <;> rfl

/-- Only a write changes a word of the memory. -/
theorem Instr.exec_mem (a : Word) (h : i.exec t ans s = some (s', p))
    (hi : ∀ v q, i ≠ .writeMemory a v q) : s'.mem a = s.mem a := by
  cases i with
  | signal_wait n =>
    obtain ⟨-, rfl, -⟩ := exec_signal_wait h
    rfl
  | lock m n =>
    obtain ⟨_, -, rfl, -⟩ := exec_lock h
    rfl
  | writeMemory b v n =>
    cases h
    exact update_of_ne (fun e => hi v _ (by rw [e])) _ _
  | ack_intr b n => cases b <;> (cases h; rfl)
  | _ => cases h <;> rfl

/-- A flag is set by a signal and cleared by its own thread. -/
theorem Instr.exec_flag (u : Thread) (h : i.exec t ans s = some (s', p)) (hu : u ≠ t)
    (hi : ∀ q, i ≠ .signal_set u q) : s'.flag u = s.flag u := by
  cases i with
  | signal_wait n =>
    obtain ⟨-, rfl, -⟩ := exec_signal_wait h
    exact update_of_ne hu _ _
  | lock m n =>
    obtain ⟨_, -, rfl, -⟩ := exec_lock h
    rfl
  | signal_set v n =>
    cases h
    exact update_of_ne (fun e => hi _ (by rw [e])) _ _
  | ack_intr b n => cases b <;> (cases h; rfl)
  | _ => cases h <;> rfl

/-- The acknowledge is raised by a pulse only. -/
theorem Instr.exec_ackPending (h : i.exec t ans s = some (s', p)) (hi : ∀ q, i ≠ .ack_intr true q) :
    s'.ackPending = s.ackPending := by
  cases i with
  | signal_wait n =>
    obtain ⟨-, rfl, -⟩ := exec_signal_wait h
    rfl
  | lock m n =>
    obtain ⟨_, -, rfl, -⟩ := exec_lock h
    rfl
  | ack_intr b n =>
    cases b
    · cases h; rfl
    · exact absurd rfl (hi n)
  | _ => cases h <;> rfl

/-- A step of a thread moves the sections of a mutex along with its program counter. -/
theorem Guards.exec {code : P → Instr P} {ok : P → Prop} {sec : P → Bool} {m : Lock} {q : P}
    {inside : Thread → Bool} (hg : Guards m code ok sec) (hok : ok p)
    (h : (code p).exec t ans s = some (s', q))
    (hm : (s.mutex m).Marks inside) (ht : inside t = sec p) :
    (s'.mutex m).Marks (update inside t (sec q)) := by
  by_cases hlock : ∃ n, code p = .lock m n
  · obtain ⟨n, hn⟩ := hlock
    obtain ⟨hp, hq⟩ := hg.enter p n hok hn
    rw [hn] at h
    obtain ⟨l, hl, rfl, rfl⟩ := Instr.exec_lock h
    rw [hq]
    simp only [update_self]
    exact (hm.lock (ht.trans hp) hl).1
  · by_cases hunlock : ∃ n, code p = .unlock m n
    · obtain ⟨n, hn⟩ := hunlock
      rw [hn] at h
      obtain ⟨hp, hq⟩ := hg.leave p n hok hn
      cases h
      rw [hq]
      simp only [update_self]
      exact hm.unlock (ht.trans hp)
    · have hstay := hg.stay p q hok (fun n hn => hlock ⟨n, hn⟩) (fun n hn => hunlock ⟨n, hn⟩)
        (Instr.exec_next h)
      rw [Instr.exec_mutex m h (fun n hn => hlock ⟨n, hn⟩) (fun n hn => hunlock ⟨n, hn⟩), hstay, ← ht,
        update_eq_self]
      exact hm

end Instr

/-! ## Where the workers go -/

/-- Where a worker can go, function by function: what the branches of its code come down to. -/
inductive WorkPc.Goes (k : Worker) : WorkPc → WorkPc → Prop where
  | wake : Goes k wait switch
  | choose (v : Word) : Goes k switch (ofType k v)
  | load (svc : Service) (v : Word) : Goes k (size svc) (enter svc v)
  | refuse (svc : Service) (arg : Word) : Goes k (enter svc arg) (leave (.failed svc))
  | guard (svc : Service) (arg : Word) (h : svc.outerLock.isSome = true) :
      Goes k (enter svc arg) (outerLock svc arg)
  | test (svc : Service) (arg : Word) (h : svc.outerLock = none) :
      Goes k (enter svc arg) (isOpen svc arg)
  | closed (svc : Service) (arg : Word) : Goes k (isOpen svc arg) (leave (.failed svc))
  | openSend (svc : Service) (arg : Word) : Goes k (isOpen svc arg) (wbLock svc)
  | openRecv (svc : Service) (arg : Word) : Goes k (isOpen svc arg) (receive svc arg)
  | heldSend (svc : Service) (arg : Word) : Goes k (outerLock svc arg) (wbLock svc)
  | heldRecv (svc : Service) (arg : Word) : Goes k (outerLock svc arg) (receive svc arg)
  | wbLock (svc : Service) : Goes k (wbLock svc) (wbRead svc 0 [])
  | wbMore (svc : Service) (i : Nat) (buf buf' : List Byte) (h : i + 1 ≠ BUF_WORDS) :
      Goes k (wbRead svc i buf) (wbRead svc (i + 1) buf')
  | wbLast (svc : Service) (i : Nat) (buf buf' : List Byte) :
      Goes k (wbRead svc i buf) (wbUnlock svc buf')
  | wbUnlock (svc : Service) (buf : List Byte) : Goes k (wbUnlock svc buf) (transmit svc buf)
  | printed (buf : List Byte) : Goes k (transmit .term_printf buf)
      (outerUnlock ⟨.term_printf, BitVec.ofNat 32 buf.length, none⟩)
  | sent (svc : Service) (buf : List Byte) (v : Word) (h : svc ≠ .term_printf) :
      Goes k (transmit svc buf) (leave ⟨svc, v, none⟩)
  | measured (arg : Word) (data : List Byte) :
      Goes k (receive .read_pow arg) (powUnlock (Service.read_pow.received arg data))
  | got (svc : Service) (arg : Word) (data : List Byte) (h : svc ≠ .read_pow) :
      Goes k (receive svc arg) (rbLock svc (svc.received arg data))
  | missed (svc : Service) (arg : Word) (h : svc ≠ .term_scanf ∧ svc ≠ .read_pow) :
      Goes k (receive svc arg) (leave (.failed svc))
  | powUnlock (reply : List Byte) : Goes k (powUnlock reply) (rbLock .read_pow reply)
  | rbLock (svc : Service) (reply : List Byte) :
      Goes k (rbLock svc reply) (rbWrite svc reply 0 (packWords BUF_WORDS reply))
  | rbWrite (svc : Service) (reply : List Byte) (i : Nat) (w : Word) (ws : List Word) :
      Goes k (rbWrite svc reply i (w :: ws)) (rbWrite svc reply (i + 1) ws)
  | scanned (reply : List Byte) (i : Nat) :
      Goes k (rbWrite .term_scanf reply i []) (outerUnlock (.replied .term_scanf reply))
  | copied (svc : Service) (reply : List Byte) (i : Nat) (h : svc ≠ .term_scanf) :
      Goes k (rbWrite svc reply i []) (leave (.replied svc reply))
  | outerUnlock (o : Outcome) : Goes k (outerUnlock o) (leave o)
  | leave (o : Outcome) : Goes k (leave o) (ackLock o)
  | ackLock (o : Outcome) : Goes k (ackLock o) (ackRet o)
  | ackRet (o : Outcome) : Goes k (ackRet o) (ackType o)
  | ackType (o : Outcome) : Goes k (ackType o) (ackHigh o)
  | ackHigh (o : Outcome) : Goes k (ackHigh o) (ackLow o)
  | ackLow (o : Outcome) : Goes k (ackLow o) (ackUnlock o)
  | ackUnlock (o : Outcome) : Goes k (ackUnlock o) wait

theorem WorkPc.goes {k : Worker} {p q : WorkPc} (h : (p.code k).Next q) : Goes k p q := by
  cases p with
  | wait => cases h; exact .wake
  | switch => obtain ⟨v, rfl⟩ := h; exact .choose v
  | size svc => obtain ⟨v, rfl⟩ := h; exact .load svc v
  | enter svc arg =>
    cases h
    unfold body
    split
    · exact .guard _ arg rfl
    · exact .guard _ arg rfl
    · split
      · exact .refuse _ arg
      · exact .guard _ arg rfl
    · refine .test svc arg ?_
      cases svc <;> first | rfl | contradiction
  | isOpen svc arg =>
    obtain ⟨v, rfl⟩ := h
    unfold opened work
    split
    · exact .closed svc arg
    · split
      · exact .openSend svc arg
      · exact .openRecv svc arg
  | outerLock svc arg =>
    cases h
    unfold work
    split
    · exact .heldSend svc arg
    · exact .heldRecv svc arg
  | wbLock svc => cases h; exact .wbLock svc
  | wbRead svc i buf =>
    obtain ⟨v, rfl⟩ := h
    unfold wbNext
    simp only
    split
    · exact .wbLast svc i buf _
    · rename_i hmore
      exact .wbMore svc i buf _ fun hi => hmore (.inr hi)
  | wbUnlock svc buf => cases h; exact .wbUnlock svc buf
  | transmit svc buf =>
    obtain ⟨ans, rfl⟩ := h
    unfold sent
    split
    · rename_i hsvc
      subst hsvc
      exact .printed buf
    · rename_i hsvc
      exact .sent svc buf ans.ret hsvc
  | receive svc arg =>
    obtain ⟨ans, rfl⟩ := h
    unfold got
    simp only
    split
    · exact .measured arg _
    · exact .got _ arg _ (by simp)
    · rename_i hpow hscan
      split
      · exact .missed svc arg ⟨hscan, hpow⟩
      · exact .got svc arg _ hpow
  | powUnlock reply => cases h; exact .powUnlock reply
  | rbLock svc reply => cases h; exact .rbLock svc reply
  | rbWrite svc reply i ws =>
    cases ws with
    | nil =>
      cases h
      unfold WorkPc.copied
      split
      · rename_i hsvc
        subst hsvc
        exact .scanned reply i
      · rename_i hsvc
        exact .copied svc reply i hsvc
    | cons w ws => cases h; exact .rbWrite svc reply i w ws
  | outerUnlock o => cases h; exact .outerUnlock o
  | leave o => cases h; exact .leave o
  | ackLock o => cases h; exact .ackLock o
  | ackRet o => cases h; exact .ackRet o
  | ackType o => cases h; exact .ackType o
  | ackHigh o => cases h; exact .ackHigh o
  | ackLow o => cases h; exact .ackLow o
  | ackUnlock o => cases h; exact .ackUnlock o
  | panicked m => cases h

theorem sendService_worker {v : Word} {svc : Service} (h : sendService v = some svc) :
    svc.worker = .send := by
  unfold sendService at h
  split_ifs at h <;> cases h <;> rfl

theorem recvService_worker {v : Word} {svc : Service} (h : recvService v = some svc) :
    svc.worker = .recv := by
  unfold recvService at h
  split_ifs at h <;> cases h <;> rfl

/-- A `switch` leads to a service or to the panic branch. -/
theorem WorkPc.ofType_cases (k : Worker) (v : Word) :
    (∃ svc, svc.worker = k ∧ (ofType k v = enter svc 0 ∨ ofType k v = size svc ∨
      ofType k v = enter svc v)) ∨ ∃ m, ofType k v = panicked m := by
  cases k with
  | pow => exact .inl ⟨.read_pow, rfl, .inr (.inr rfl)⟩
  | send =>
    unfold ofType
    simp only
    split
    · rename_i svc hsvc
      exact .inl ⟨svc, sendService_worker hsvc, .inl rfl⟩
    · exact .inr ⟨_, rfl⟩
  | recv =>
    unfold ofType
    simp only
    split
    · exact .inl ⟨.term_scanf, rfl, .inl rfl⟩
    · rename_i svc _ hsvc
      exact .inl ⟨svc, recvService_worker hsvc, .inr (.inl rfl)⟩
    · exact .inr ⟨_, rfl⟩

/-! ## Where the workers write -/

/-- What is received has no NUL in it. -/
theorem received_text (svc : Service) (arg : Word) (data : List Byte) :
    ∀ b ∈ svc.received arg data, b ≠ 0 := by
  intro b hb
  simpa using List.mem_takeWhile_imp hb


/-- The service a worker is busy with. -/
def WorkPc.service? : WorkPc → Option Service
  | size svc | enter svc _ | isOpen svc _ | outerLock svc _ | wbLock svc | wbRead svc _ _
  | wbUnlock svc _ | transmit svc _ | receive svc _ | rbLock svc _ | rbWrite svc _ _ _ => some svc
  | powUnlock _ => some .read_pow
  | outerUnlock o | leave o | ackLock o | ackRet o | ackType o | ackHigh o | ackLow o
  | ackUnlock o => some o.svc
  | wait | switch | panicked _ => none

/-- What the values in a program counter are to each other: `jtag_readbuffer` has the rest of the
reply's words left, `jtag_writebuffer` an index in the buffer, and a service either takes a mutex or
tests its link. -/
def WorkPc.InOrder : WorkPc → Prop
  | rbWrite _ reply i ws => ws = (packWords BUF_WORDS reply).drop i
  | wbRead _ i _ => i < BUF_WORDS
  | outerLock svc _ => svc.outerLock.isSome = true
  | isOpen svc _ => svc.outerLock = none
  | _ => True

/-- A worker runs its own services, in order. -/
structure WorkPc.Fits (k : Worker) (p : WorkPc) : Prop where
  own : ∀ svc, p.service? = some svc → svc.worker = k
  inOrder : p.InOrder

theorem WorkPc.ofType_fits (k : Worker) (v : Word) : (ofType k v).Fits k := by
  rcases ofType_cases k v with ⟨svc, hk, h | h | h⟩ | ⟨m, h⟩ <;> rw [h] <;>
    refine ⟨fun svc' hs => ?_, trivial⟩ <;> cases hs
  · exact hk
  · exact hk
  · exact hk

/-- Inside a service the program counters keep to it. -/
theorem WorkPc.next_service {k : Worker} {p q : WorkPc} {svc : Service}
    (hp : p.service? = some svc) (h : (p.code k).Next q) :
    q.service? = some svc ∨ q.service? = none := by
  cases goes h with
  | wake | choose => cases hp
  | ackUnlock => exact .inr rfl
  | _ => exact .inl hp

theorem WorkPc.InOrder.next {k : Worker} {p q : WorkPc} (hp : p.InOrder) (h : (p.code k).Next q) :
    q.InOrder := by
  cases goes h with
  | choose v => exact (ofType_fits k v).inOrder
  | guard svc arg hsvc => exact hsvc
  | test svc arg hsvc => exact hsvc
  | wbLock svc => exact (by decide : 0 < BUF_WORDS)
  | wbMore svc i buf buf' hi =>
    have hlt : i < BUF_WORDS := hp
    show i + 1 < BUF_WORDS
    omega
  | rbLock svc reply => rfl
  | rbWrite svc reply i w ws =>
    have hdrop : w :: ws = (packWords BUF_WORDS reply).drop i := hp
    show ws = (packWords BUF_WORDS reply).drop (i + 1)
    rw [← List.drop_drop, ← hdrop]
    rfl
  | _ => trivial

theorem WorkPc.Fits.next {k : Worker} {p q : WorkPc} (hp : p.Fits k) (h : (p.code k).Next q) :
    q.Fits k := by
  refine ⟨fun svc hsvc => ?_, hp.inOrder.next h⟩
  cases hs : p.service? with
  | some svc' =>
    rcases next_service hs h with hq | hq
    · rw [hq] at hsvc
      cases hsvc
      exact hp.own svc hs
    · rw [hq] at hsvc
      cases hsvc
  | none =>
    cases p with
    | wait => cases h; cases hsvc
    | switch =>
      obtain ⟨v, rfl⟩ := h
      exact (ofType_fits k v).own svc hsvc
    | panicked m => cases h
    | _ => cases hs

/-- The addresses a worker writes: its part of READBUF and the two acknowledge words. -/
theorem WorkPc.Fits.write {k : Worker} {p n : WorkPc} {a v : Word} (hp : p.Fits k)
    (h : p.code k = .writeMemory a v n) :
    (∃ i < BUF_WORDS, a = readbufAddr i) ∨ a = ACK_RETURN_VAL ∨ a = ACK_TYPE := by
  cases p with
  | rbWrite svc reply i ws =>
    cases ws with
    | nil => cases h
    | cons w ws =>
      have hdrop : w :: ws = (packWords BUF_WORDS reply).drop i := hp.inOrder
      cases h
      have hlen := congrArg List.length hdrop
      have hpack := length_packWords_le BUF_WORDS reply
      rw [List.length_drop, List.length_cons] at hlen
      exact .inl ⟨i, by omega, rfl⟩
  | ackRet o => cases h; exact .inr (.inl rfl)
  | ackType o => cases h; exact .inr (.inr rfl)
  | _ => cases h

/-- None of them is the request word. -/
theorem WorkPc.Fits.write_ne {k : Worker} {p n : WorkPc} {a v : Word} (hp : p.Fits k)
    (h : p.code k = .writeMemory a v n) : a ≠ IO_TYPE := by
  have hbuf : ∀ i < BUF_WORDS, readbufAddr i ≠ IO_TYPE := by decide
  rcases hp.write h with ⟨i, hi, rfl⟩ | rfl | rfl
  · exact hbuf i hi
  · decide
  · decide

/-- Every worker is at its own work. -/
def Host.Placed (h : Host) : Prop := ∀ k, (h.work k).Fits k

theorem Host.Placed.step {a : HostAct} {h h' : Host} (hh : h.Placed) (hs : h.step a = some h') :
    h'.Placed := by
  cases a with
  | handler =>
    simp only [Host.step] at hs
    split at hs
    · cases hs; exact hh
    · cases hs
  | dispatch ans =>
    simp only [Host.step, Option.map_eq_some_iff] at hs
    obtain ⟨⟨s, p⟩, -, rfl⟩ := hs
    exact hh
  | work k ans =>
    simp only [Host.step, Option.map_eq_some_iff] at hs
    obtain ⟨⟨s, p⟩, he, rfl⟩ := hs
    intro k'
    by_cases hkk : k' = k
    · subst hkk
      simpa using (hh k').next (Instr.exec_next he)
    · simpa [hkk] using hh k'

theorem Host.Fresh.placed {h : Host} (hf : h.Fresh) : h.Placed := by
  intro k
  rw [hf.work]
  exact ⟨(fun _ hs => nomatch hs), trivial⟩

theorem workers_placed {h : Host} (hr : anyChip.Reach h) : h.Placed := by
  refine hr.invariant (I := Host.Placed) (fun h (hf : h.Fresh) => hf.placed) ?_
  rintro (a | c) h h' hh - hs
  · exact hh.step hs
  · cases hs
    cases c <;> exact hh

/-! ## The sections of the mutexes -/

def DispatchPc.inJTAG : DispatchPc → Bool
  | readType | readVal _ | clear .. | unlock .. => true
  | _ => false

/-- The dispatcher holds the mutex. -/
def DispatchPc.holds (m : Lock) (p : DispatchPc) : Bool :=
  match m with
  | .JTAG => p.inJTAG
  | .term_write =>
    match p with
    | print _ | printUnlock => true
    | _ => false
  | _ => false

def WorkPc.inJTAG : WorkPc → Bool
  | wbRead .. | wbUnlock .. | rbWrite .. | ackRet _ | ackType _ | ackHigh _ | ackLow _
  | ackUnlock _ => true
  | _ => false

/-- The mutex a service holds around its work, at the program counters where it does. -/
def WorkPc.outerHeld : WorkPc → Option Lock
  | wbLock svc | wbRead svc _ _ | wbUnlock svc _ | transmit svc _ =>
    if svc = .term_printf then some .term_write else none
  | receive svc _ => if svc.worker = .send then none else svc.outerLock
  | powUnlock _ => some .pow_sensr
  | rbLock svc _ | rbWrite svc _ _ _ => if svc = .term_scanf then some .term_read else none
  | outerUnlock o => some (o.svc.outerLock.getD .pow_sensr)
  | _ => none

/-- The worker holds the mutex. -/
def WorkPc.holds (m : Lock) (p : WorkPc) : Bool :=
  match m with
  | .JTAG => p.inJTAG
  | m => p.outerHeld = some m

theorem DispatchPc.switch_holds (m : Lock) (type val : Word) : (switch type val).holds m = false := by
  unfold switch
  split <;> cases m <;> rfl

theorem WorkPc.ofType_holds (m : Lock) (k : Worker) (v : Word) : (ofType k v).holds m = false := by
  rcases ofType_cases k v with ⟨svc, -, h | h | h⟩ | ⟨_, h⟩ <;> rw [h] <;> cases m <;> rfl

theorem dispatch_guards (m : Lock) :
    Guards m DispatchPc.code (fun _ => True) (DispatchPc.holds m) := by
  refine ⟨fun p n _ h => ?_, fun p n _ h => ?_, fun p q _ hl hu h => ?_⟩
  · cases p <;> cases h <;> exact ⟨rfl, rfl⟩
  · cases p with
    | unlock type val => cases h; exact ⟨rfl, DispatchPc.switch_holds _ _ _⟩
    | printUnlock => cases h; exact ⟨rfl, rfl⟩
    | _ => cases h
  · cases p with
    | lock =>
      cases h
      cases m with
      | JTAG => exact absurd rfl (hl _)
      | _ => rfl
    | printLock type =>
      cases h
      cases m with
      | term_write => exact absurd rfl (hl _)
      | _ => rfl
    | unlock type val =>
      cases h
      rw [DispatchPc.switch_holds]
      cases m with
      | JTAG => exact absurd rfl (hu _)
      | _ => rfl
    | printUnlock =>
      cases h
      cases m with
      | term_write => exact absurd rfl (hu _)
      | _ => rfl
    | readType => obtain ⟨v, rfl⟩ := h; cases m <;> rfl
    | readVal => obtain ⟨v, rfl⟩ := h; cases m <;> rfl
    | print => obtain ⟨v, rfl⟩ := h; cases m <;> rfl
    | storeType svc val =>
      cases h
      split <;> cases m <;> rfl
    | _ => cases h; cases m <;> rfl

/-- What a worker's lock and unlock are of. -/
theorem WorkPc.code_lock {k : Worker} {p n : WorkPc} {m : Lock} (hp : p.InOrder)
    (h : p.code k = .lock m n) : p.holds m = false ∧ n.holds m = true := by
  cases p with
  | outerLock svc arg => cases svc <;> cases hp <;> cases h <;> exact ⟨rfl, rfl⟩
  | rbWrite svc reply i ws => cases ws <;> cases h
  | wbLock | rbLock | ackLock => cases h; exact ⟨rfl, rfl⟩
  | _ => cases h

theorem WorkPc.code_unlock {k : Worker} {p n : WorkPc} {m : Lock} (h : p.code k = .unlock m n) :
    p.holds m = true ∧ n.holds m = false := by
  cases p with
  | outerUnlock o =>
    obtain ⟨svc, rtn, reply⟩ := o
    cases svc <;> cases h <;> exact ⟨rfl, rfl⟩
  | rbWrite svc reply i ws =>
    cases ws with
    | nil =>
      cases h
      refine ⟨rfl, ?_⟩
      unfold WorkPc.copied
      split <;> rfl
    | cons => cases h
  | wbUnlock | ackUnlock | powUnlock => cases h; exact ⟨rfl, rfl⟩
  | _ => cases h

theorem work_guards (m : Lock) (k : Worker) :
    Guards m (WorkPc.code k) WorkPc.InOrder (WorkPc.holds m) := by
  refine ⟨fun p n hp h => WorkPc.code_lock hp h, fun p n _ h => WorkPc.code_unlock h,
    fun p q hp hl hu h => ?_⟩
  -- the program counters that lock or unlock `m` are excluded; at the others nothing changes
  cases WorkPc.goes h with
  | choose v => rw [WorkPc.ofType_holds]; cases m <;> rfl
  | openSend svc arg => cases svc <;> cases hp <;> cases m <;> rfl
  | openRecv svc arg => cases svc <;> cases hp <;> cases m <;> rfl
  | heldSend svc arg =>
    cases svc <;> cases m <;> first | rfl | exact absurd rfl (hl _)
  | heldRecv svc arg =>
    cases svc <;> cases m <;> first | rfl | exact absurd rfl (hl _)
  | wbLock | rbLock | ackLock =>
    cases m with
    | JTAG => exact absurd rfl (hl _)
    | _ => rfl
  | wbUnlock | scanned | ackUnlock =>
    cases m with
    | JTAG => exact absurd rfl (hu _)
    | _ => rfl
  | copied svc reply i hsvc =>
    cases m with
    | JTAG => exact absurd rfl (hu _)
    | _ => simp [WorkPc.holds, WorkPc.outerHeld, hsvc]
  | sent svc buf v hsvc => cases m <;> simp [WorkPc.holds, WorkPc.inJTAG, WorkPc.outerHeld, hsvc]
  | got svc arg data hsvc => cases svc <;> cases m <;> first | rfl | exact absurd rfl hsvc
  | missed svc arg hsvc =>
    cases svc <;> cases m <;> first | rfl | exact absurd rfl hsvc.1 | exact absurd rfl hsvc.2
  | powUnlock reply =>
    cases m with
    | pow_sensr => exact absurd rfl (hu _)
    | _ => rfl
  | outerUnlock o =>
    obtain ⟨svc, rtn, reply⟩ := o
    cases svc <;> cases m <;> first | rfl | exact absurd rfl (hu _)
  | _ => cases m <;> rfl

/-- The threads that hold the mutex. -/
def Host.inside (h : Host) (m : Lock) : Thread → Bool
  | .dispatch => h.dispatch.holds m
  | .work k => (h.work k).holds m
  | _ => false

/-- The mutex is held as the program counters say. -/
def Host.Held (h : Host) (m : Lock) : Prop := (h.shared.mutex m).Marks (h.inside m)

/-- The dispatcher and a worker are not inside together. -/
theorem Host.Held.not_both {h : Host} {m : Lock} (hh : h.Held m) {k : Worker}
    (hd : h.dispatch.holds m = true) (hk : (h.work k).holds m = true) : False := by
  have := Mutex.Marks.unique hh (show h.inside m .dispatch = true from hd)
    (show h.inside m (.work k) = true from hk)
  cases this

/-- Nor are two workers. -/
theorem Host.Held.worker_unique {h : Host} {m : Lock} (hh : h.Held m) {k k' : Worker}
    (hk : (h.work k).holds m = true) (hk' : (h.work k').holds m = true) : k = k' := by
  have := Mutex.Marks.unique hh (show h.inside m (.work k) = true from hk)
    (show h.inside m (.work k') = true from hk')
  cases this
  rfl

theorem Host.Held.step {a : HostAct} {h h' : Host} {m : Lock} (hpl : h.Placed) (hh : h.Held m)
    (hs : h.step a = some h') : h'.Held m := by
  cases a with
  | handler =>
    simp only [Host.step] at hs
    split at hs
    · cases hs; exact hh
    · cases hs
  | dispatch ans =>
    simp only [Host.step, Option.map_eq_some_iff] at hs
    obtain ⟨⟨s, p⟩, he, rfl⟩ := hs
    have hm := (dispatch_guards m).exec trivial he hh rfl
    have hsec : update (h.inside m) .dispatch (p.holds m) =
        ({ h with shared := s, dispatch := p } : Host).inside m := by
      funext t
      cases t <;> rfl
    rwa [hsec] at hm
  | work k ans =>
    simp only [Host.step, Option.map_eq_some_iff] at hs
    obtain ⟨⟨s, p⟩, he, rfl⟩ := hs
    have hm := (work_guards m k).exec (hpl k).inOrder he hh rfl
    have hsec : update (h.inside m) (.work k) (p.holds m) =
        ({ h with shared := s, work := update h.work k p } : Host).inside m := by
      funext t
      cases t with
      | work k' =>
        by_cases hk : k' = k
        · subst hk; simp [inside]
        · simp [inside, hk]
      | _ => simp [inside]
    rwa [hsec] at hm

theorem Host.Fresh.held {h : Host} (hf : h.Fresh) (m : Lock) : h.Held m := by
  unfold Host.Held
  rw [hf.mutex]
  refine Mutex.Marks.free fun t => ?_
  cases t with
  | dispatch =>
    show h.dispatch.holds m = false
    rw [hf.dispatch]
    cases m <;> rfl
  | work k =>
    show (h.work k).holds m = false
    rw [hf.work]
    cases m <;> rfl
  | _ => rfl

/-- Every memory write of a worker is made inside. -/
theorem WorkPc.write_inJTAG {k : Worker} {p n : WorkPc} {a v : Word}
    (h : p.code k = .writeMemory a v n) : p.inJTAG = true := by
  cases p with
  | rbWrite => rfl
  | ackRet => rfl
  | ackType => rfl
  | _ => cases h

theorem DispatchPc.write_inJTAG {p n : DispatchPc} {a v : Word}
    (h : p.code = .writeMemory a v n) : p.inJTAG = true := by
  cases p with
  | clear => rfl
  | _ => cases h

theorem lock_sections {h : Host} (hr : anyChip.Reach h) (m : Lock) : h.Held m := by
  refine hr.invariant_of (J := Host.Placed) (I := fun h => h.Held m) (fun _ => workers_placed)
    (fun h (hf : h.Fresh) => hf.held m) ?_
  rintro (a | c) h h' hpl hh - hs
  · exact hh.step hpl hs
  · cases hs
    cases c <;> exact hh

/-! ## Valid types -/

/-- The value is one the worker's `switch` has a case for. -/
def Worker.Knows (k : Worker) (v : Word) : Prop := ∀ m, WorkPc.ofType k v ≠ .panicked m

/-- The dispatcher has stored the type for worker `k` and is yet to signal it. -/
def DispatchPc.signalling (k : Worker) : DispatchPc → Bool
  | storeArg svc _ | signal svc => svc.worker = k
  | _ => false

theorem Service.worker_knows (svc : Service) : svc.worker.Knows svc.typeCode := by
  intro m
  cases svc <;> exact WorkPc.noConfusion

theorem Worker.pow_knows (v : Word) : Worker.pow.Knows v := fun _ => WorkPc.noConfusion

/-- A worker that is, or is about to be, signalled or woken finds a type it knows; so no worker is
in its panic branch. -/
structure Host.TypesSet (h : Host) : Prop where
  woken : ∀ k, h.shared.flag (.work k) = true ∨ h.work k = .switch →
    k.Knows (h.shared.glob k.typeVar)
  signalling : ∀ k, h.dispatch.signalling k = true → k.Knows (h.shared.glob k.typeVar)
  calm : ∀ k m, h.work k ≠ .panicked m

/-- The only way into the panic branch is the `switch`, and the only way to the `switch` a signal. -/
theorem WorkPc.next_calm {k : Worker} {p q : WorkPc} (h : (p.code k).Next q) (hp : p ≠ .switch) :
    (∀ m, q ≠ .panicked m) ∧ (q = .switch → p = .wait) := by
  cases goes h with
  | choose v => exact absurd rfl hp
  | _ => simp

/-- A worker signals nobody. -/
theorem WorkPc.code_ne_signal {k : Worker} (p : WorkPc) (u : Thread) (q : WorkPc) :
    p.code k ≠ .signal_set u q := by
  intro h
  cases p with
  | rbWrite svc reply i ws => cases ws <;> cases h
  | _ => cases h

/-- A worker pulses at one place. -/
theorem WorkPc.code_ne_pulse {k : Worker} {p : WorkPc} (hp : ∀ o, p ≠ .ackHigh o) (q : WorkPc) :
    p.code k ≠ .ack_intr true q := by
  intro h
  cases p with
  | ackHigh o => exact hp o rfl
  | rbWrite svc reply i ws => cases ws <;> cases h
  | _ => cases h

/-- And a service returns at one. -/
theorem WorkPc.code_ne_ret {k : Worker} {p : WorkPc} (hp : ∀ o, p ≠ .leave o) (o : Outcome)
    (q : WorkPc) : p.code k ≠ .ret o q := by
  intro h
  cases p with
  | leave o' => exact hp o' rfl
  | rbWrite svc reply i ws => cases ws <;> cases h
  | _ => cases h

/-- What a worker's step does to flags and variables: it only clears its own flag. -/
theorem WorkPc.exec_frame {k : Worker} {p q : WorkPc} {ans : Answer} {s s' : Shared}
    (h : (p.code k).exec (.work k) ans s = some (s', q)) :
    s'.glob = s.glob ∧ (∀ u, s'.flag u = true → s.flag u = true) ∧
      (p = .wait → s.flag (.work k) = true) := by
  cases p with
  | wait =>
    obtain ⟨hf, rfl, -⟩ := Instr.exec_signal_wait h
    refine ⟨rfl, fun u hu => ?_, fun _ => hf⟩
    by_cases huk : u = .work k
    · rw [huk]; exact hf
    · simpa [huk] using hu
  | outerLock svc arg =>
    obtain ⟨_, -, rfl, -⟩ := Instr.exec_lock h
    exact ⟨rfl, fun _ hu => hu, by simp⟩
  | wbLock svc =>
    obtain ⟨_, -, rfl, -⟩ := Instr.exec_lock h
    exact ⟨rfl, fun _ hu => hu, by simp⟩
  | rbLock svc reply =>
    obtain ⟨_, -, rfl, -⟩ := Instr.exec_lock h
    exact ⟨rfl, fun _ hu => hu, by simp⟩
  | ackLock o =>
    obtain ⟨_, -, rfl, -⟩ := Instr.exec_lock h
    exact ⟨rfl, fun _ hu => hu, by simp⟩
  | rbWrite svc reply i ws => cases ws <;> (cases h; exact ⟨rfl, fun _ hu => hu, by simp⟩)
  | panicked m => cases h
  | _ => cases h; exact ⟨rfl, fun _ hu => hu, by simp⟩

/-- A worker's own flag is cleared by its wake-up only. -/
theorem WorkPc.exec_own_flag {k : Worker} {p q : WorkPc} {ans : Answer} {s s' : Shared}
    (h : (p.code k).exec (.work k) ans s = some (s', q)) (hw : p ≠ .wait) :
    s'.flag (.work k) = s.flag (.work k) := by
  generalize hi : p.code k = i at h
  cases i with
  | signal_wait n =>
    cases p with
    | wait => exact absurd rfl hw
    | rbWrite svc reply j ws => cases ws <;> cases hi
    | _ => cases hi
  | signal_set u n => exact absurd hi (WorkPc.code_ne_signal p u n)
  | lock m n =>
    obtain ⟨_, -, rfl, -⟩ := Instr.exec_lock h
    rfl
  | ack_intr b n => cases b <;> (cases h; rfl)
  | _ => cases h <;> rfl

theorem DispatchPc.switch_signalling {type val : Word} {k : Worker}
    (h : (switch type val).signalling k = true) : k = .pow := by
  unfold switch at h
  split at h
  · exact (of_decide_eq_true h).symm
  · cases h
  · cases h

theorem Worker.typeVar_inj {k k' : Worker} (h : k.typeVar = k'.typeVar) : k = k' := by
  cases k <;> cases k' <;> first | rfl | cases h

/-- The argument variables are not type variables, but for the gain, which any value will do for. -/
theorem Service.argVar_knows {svc : Service} {k : Worker}
    (h : k.typeVar = svc.argVar.getD .req_gain_ctrl) : k = .pow := by
  cases k <;> cases svc <;> first | rfl | cases h

theorem Host.TypesSet.dispatch {ans : Answer} {h : Host} {s : Shared} {p : DispatchPc}
    (ht : h.TypesSet) (he : h.dispatch.code.exec .dispatch ans h.shared = some (s, p)) :
    ({ h with shared := s, dispatch := p } : Host).TypesSet := by
  suffices hk : ∀ k, (s.flag (.work k) = true ∨ h.work k = .switch → k.Knows (s.glob k.typeVar)) ∧
      (p.signalling k = true → k.Knows (s.glob k.typeVar)) from
    ⟨fun k => (hk k).1, fun k => (hk k).2, ht.calm⟩
  intro k
  have hwoken := ht.woken k
  have hsig := ht.signalling k
  generalize h.dispatch = d at he hsig
  cases d with
  | wait =>
    obtain ⟨-, rfl, rfl⟩ := Instr.exec_signal_wait he
    exact ⟨fun hf => hwoken (by simpa using hf), fun hs => by cases hs⟩
  | lock =>
    obtain ⟨l, -, rfl, rfl⟩ := Instr.exec_lock he
    exact ⟨hwoken, fun hs => by cases hs⟩
  | printLock type =>
    obtain ⟨l, -, rfl, rfl⟩ := Instr.exec_lock he
    exact ⟨hwoken, fun hs => by cases hs⟩
  | unlock type val =>
    cases he
    refine ⟨hwoken, fun hs => ?_⟩
    rw [DispatchPc.switch_signalling hs]
    exact Worker.pow_knows _
  | storeType svc val =>
    cases he
    by_cases hvar : k.typeVar = svc.worker.typeVar
    · have hknows : k.Knows svc.typeCode := by
        rw [Worker.typeVar_inj hvar]
        exact svc.worker_knows
      simp only [hvar, update_self]
      exact ⟨fun _ => hknows, fun _ => hknows⟩
    · simp only [update_of_ne hvar]
      refine ⟨hwoken, fun hs => ?_⟩
      have hkw : svc.worker = k := by
        split at hs <;> exact of_decide_eq_true hs
      exact absurd (by rw [hkw]) hvar
  | storeArg svc val =>
    cases he
    by_cases hvar : k.typeVar = svc.argVar.getD .req_gain_ctrl
    · rw [Service.argVar_knows hvar]
      exact ⟨fun _ => Worker.pow_knows _, fun _ => Worker.pow_knows _⟩
    · simp only [update_of_ne hvar]
      exact ⟨hwoken, hsig⟩
  | signal svc =>
    cases he
    refine ⟨fun hf => ?_, fun hs => by cases hs⟩
    by_cases hkw : svc.worker = k
    · exact hsig (decide_eq_true hkw)
    · exact hwoken (by simpa [Ne.symm hkw] using hf)
  | _ =>
    cases he
    exact ⟨hwoken, fun hs => by cases hs⟩

theorem Host.TypesSet.step {a : HostAct} {h h' : Host} (ht : h.TypesSet) (hs : h.step a = some h') :
    h'.TypesSet := by
  cases a with
  | handler =>
    simp only [Host.step] at hs
    split at hs
    · cases hs
      exact ⟨fun k hk => ht.woken k (by simpa using hk), ht.signalling, ht.calm⟩
    · cases hs
  | dispatch ans =>
    simp only [Host.step, Option.map_eq_some_iff] at hs
    obtain ⟨⟨s, p⟩, he, rfl⟩ := hs
    exact ht.dispatch he
  | work k ans =>
    simp only [Host.step, Option.map_eq_some_iff] at hs
    obtain ⟨⟨s, p⟩, he, rfl⟩ := hs
    obtain ⟨hglob, hflag, hwait⟩ := WorkPc.exec_frame he
    have hnext := Instr.exec_next he
    -- where the worker goes: never to its panic branch, and to the `switch` only when signalled
    have hgo : (∀ m, p ≠ .panicked m) ∧
        (p = .switch → k.Knows (h.shared.glob k.typeVar)) := by
      by_cases hsw : h.work k = .switch
      · have hknows := ht.woken k (.inr hsw)
        rw [hsw] at he
        cases he
        exact ⟨hknows, fun _ => hknows⟩
      · obtain ⟨hcalm, hfrom⟩ := WorkPc.next_calm hnext hsw
        exact ⟨hcalm, fun hp => ht.woken k (.inl (hwait (hfrom hp)))⟩
    refine ⟨fun k' hk' => ?_, fun k' hsig => ?_, fun k' m => ?_⟩
    · show k'.Knows (s.glob k'.typeVar)
      rw [hglob]
      rcases hk' with hf | hw
      · exact ht.woken k' (.inl (hflag _ hf))
      · by_cases hkk : k' = k
        · subst hkk
          exact hgo.2 (by simpa using hw)
        · exact ht.woken k' (.inr (by simpa [hkk] using hw))
    · show k'.Knows (s.glob k'.typeVar)
      rw [hglob]
      exact ht.signalling k' hsig
    · by_cases hkk : k' = k
      · subst hkk
        simpa using hgo.1 m
      · simpa [hkk] using ht.calm k' m

theorem Host.Fresh.typesSet {h : Host} (hf : h.Fresh) : h.TypesSet := by
  refine ⟨fun k hk => ?_, fun k hk => ?_, fun k m => ?_⟩
  · rw [hf.flag, hf.work] at hk
    rcases hk with hk | hk <;> cases hk
  · rw [hf.dispatch] at hk
    cases hk
  · rw [hf.work]
    exact WorkPc.noConfusion

theorem types_set {h : Host} (hr : anyChip.Reach h) : h.TypesSet := by
  refine hr.invariant (I := Host.TypesSet) (fun h (hf : h.Fresh) => hf.typesSet) ?_
  rintro (a | c) h h' hh - hs
  · exact hh.step hs
  · cases hs
    cases c <;> exact ⟨hh.woken, hh.signalling, hh.calm⟩

end Expedition
