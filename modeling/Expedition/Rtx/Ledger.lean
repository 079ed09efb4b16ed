import Expedition.Rtx.Served

/-!
# What the threads have been told

The history of a run as the threads and the interrupts see it: the last call of each thread, the calls
that have come back with their results, and the requests made and served.

* `Ledger` — the history; `audited` — the kernel with its history.
* `Asks` — a task that waits has made a call that waits, and its result is there in case nothing comes.
* `Act.answered` — a call that has waited comes back with its timeout, or served.
* `posts_in_order` — **the requests of the interrupts are served in the order made, and none is lost or
  served twice.**
-/

namespace Expedition.Rtx

open Queues

variable {M S T : Type}

/-- What has been called and answered, the latest calls first, what interrupts have asked for, and the tokens
there were at the start. -/
structure Ledger (M S T : Type) where
  last : T → Option (Service M S T)
  answers : T → List (Service M S T × Nat)
  posted : List (Option (T ⊕ S) × BitVec 16)
  served : List (Option (T ⊕ S) × BitVec 16)
  stock : S → Nat

instance (s : TaskState) : Decidable s.Waits := by
  unfold TaskState.Waits
  infer_instance

instance (v : Vars M S T) (t : T) : Decidable (v.up t) := by
  unfold Vars.up
  infer_instance

/-- The request an interrupt makes, where it makes one. -/
def Act.request (v : Vars M S T) : Act M S T → Option (Option (T ⊕ S) × BitVec 16)
  | .raise t f =>
    if v.is_tcb t then (v.os_active_TCB (v.task_id t - 1)).map fun u => (some (.inl u), f) else none
  | .post s => if v.tokens s ≠ 0xFFFF then some (some (.inr s), 0) else none
  | _ => none

/-- The request that is served. -/
def Act.serves (v : Vars M S T) (popping : Option Nat) : Act M S T → Option (Option (T ⊕ S) × BitVec 16)
  | .pop => popping.bind fun idx => if v.psq_count = 0 then none else some (v.psq_id idx, v.psq_arg idx)
  | _ => none

def Ledger.opened (tokens : S → Nat) : Ledger M S T := ⟨fun _ => none, fun _ => [], [], [], tokens⟩

section Note

variable [DecidableEq T]

/-- The call that the task `t` makes in this action. -/
def Act.own (v : Vars M S T) (t : T) : Act M S T → Option (Service M S T)
  | .service c => if v.run = some t then some c else none
  | _ => none

/-- The call of the task `t` that comes back in this action, and its result: its own call, unless that
has put it to sleep, or the one it has waited in. -/
def Ledger.answer (g : Ledger M S T) (a : Act M S T) (v v' : Vars M S T) (t : T) :
    Option (Service M S T × Nat) :=
  match a.own v t with
  | some c => if (v'.state t).Waits then none else some (c, v'.ret t)
  | none => if (v.state t).Waits ∧ v'.up t then (g.last t).map fun c => (c, v'.ret t) else none

/-- The history after an action. -/
def Ledger.note (g : Ledger M S T) (a : Act M S T) (popping : Option Nat) (v v' : Vars M S T) :
    Ledger M S T where
  last t := (a.own v t).or (g.last t)
  answers t := (g.answer a v v' t).toList ++ g.answers t
  posted := g.posted ++ (a.request v).toList
  served := g.served ++ (a.serves v popping).toList
  stock := g.stock

end Note

/-- The calls of the task `t` that have come back so far and that meet `p`, counted. -/
def Ledger.count (g : Ledger M S T) (p : Service M S T × Nat → Bool) (t : T) : Nat := (g.answers t).countP p

variable [DecidableEq M] [DecidableEq S] [DecidableEq T]

/-- The kernel with its history. -/
def audited [Fintype T] (idle : T) : Machine (Core (Kernel M S T) × Ledger M S T) (Act M S T) where
  start p := (board idle).start p.1 ∧ p.2 = .opened p.1.kernel.vars.tokens
  step a p := ((board idle).step a p.1).map fun s =>
    (s, p.2.note a p.1.popping p.1.kernel.vars s.kernel.vars)

variable {q q' : Queues M S T} {idle x t run : T} {a : Act M S T} {popping : Option Nat} {g : Ledger M S T}

omit [DecidableEq M] [DecidableEq S] in
theorem Ledger.count_note (g : Ledger M S T) (a : Act M S T) (popping : Option Nat) (v v' : Vars M S T)
    (p : Service M S T × Nat → Bool) (t : T) :
    (g.note a popping v v').count p t = ((g.answer a v v' t).any p).toNat + g.count p t := by
  unfold Ledger.count Ledger.note
  rw [List.countP_append]
  cases g.answer a v v' t with
  | none => rfl
  | some c =>
    have hone : (some c).toList.countP p = (p c).toNat := by
      rw [Option.toList_some, List.countP_singleton]
      cases p c <;> rfl
    rw [hone]
    rfl

omit [DecidableEq M] [DecidableEq S] in
theorem Ledger.count_noted (g : Ledger M S T) (a : Act M S T) (popping : Option Nat)
    (v v' : Vars M S T) (p : Service M S T × Nat → Bool) :
    (g.note a popping v v').count p = fun t => ((g.answer a v v' t).any p).toNat + g.count p t :=
  funext fun t => g.count_note a popping v v' p t

/-! ## Tasks that wait -/

theorem systick_ret (q : Queues M S T) (run : T) : (q.systick run).vars.ret = q.vars.ret := by
  have hswap : ∀ q₁ : Queues M S T, q₁.swapRobin.vars.ret = q₁.vars.ret := by
    intro q₁
    unfold Queues.swapRobin
    split
    · split
      · rfl
      · show (Queues.take _ _).vars.ret = _
        rw [take_vars]
        rfl
    · rfl
  have hrobin : (q.toFront run).robin.vars.ret = q.vars.ret := by
    unfold Queues.robin
    rw [hswap]
    split <;> rfl
  exact (((Moved.tick _).trans (Moved.next _)).ret).trans hrobin

/-- The result of a task that waits changes only where it is woken. -/
theorem Act.told (hq : InOrder idle q popping) (hf : a.Fit idle q.vars) (hp : (a.prog popping).isSome)
    (hw : (q.vars.state t).Waits) : (a.effect q popping).1.vars.ret t = q.vars.ret t ∨
      Woken t q (a.effect q popping).1 ∧ a.Wakes q t popping := by
  obtain ⟨hrun, hplace⟩ := hq.waits_out hw
  by_cases ha : a = .tick
  · subst ha
    refine .inl ?_
    cases popping with
    | some idx => rfl
    | none =>
      obtain ⟨⟨run, hchosen, hr⟩, -⟩ := hq
      simp only [Act.effect, hr]
      exact congrFun (systick_ret q run) t
  · by_cases hn : a.Names q.vars t
    · refine .inl ?_
      cases a with
      | service c =>
        cases popping with
        | some idx => cases hp
        | none =>
          obtain ⟨⟨run, hchosen, hr⟩, -⟩ := hq
          have hne : t ≠ run := fun he => hrun rfl (he ▸ hr)
          simp only [Act.effect, hr]
          refine (Function.update_of_ne hne ..).trans ?_
          cases c with
          | threadCreate u p =>
            simp only [Service.effect]
            split
            · rfl
            · exact congrFun (Moved.dispatch (q.enrol u _ _) run u).ret t
          | threadTerminate u =>
            simp only [Service.effect]
            split
            · split
              · exact congrFun (Moved.next (q.edit _)).ret t
              · split
                · rfl
                · show (q.take _).vars.ret t = _
                  rw [take_vars]
            · rfl
          | _ => exact hn.elim
      | _ => exact hn.elim
    · exact (a.sleeps hq hf hp ha hrun hplace hn).imp_left Sleeps.ret

/-- A task that waits has made a call that waits; its result is there in case nothing comes, its state says
what it is told when it is served, and the list it is in is the one the call is about. -/
def Asks (q : Queues M S T) (last : T → Option (Service M S T)) : Prop :=
  ∀ t, (q.vars.state t).Waits → ∃ c n, last t = some c ∧ c.millisec = some n ∧ q.vars.ret t = c.timeout ∧
    (q.vars.state t).success = c.success ∧ ∀ h, q.place t = some h → c.list = some h

omit [DecidableEq M] [DecidableEq S] in
theorem Act.own_eq_none (ht : ¬ a.Caller q.vars t) : a.own q.vars t = none := by
  cases a with
  | service c => exact if_neg ht
  | _ => rfl

/-- The calls made are noted. -/
theorem Asks.step (h : Asks q g.last) (hq : InOrder idle q popping) (hf : a.Fit idle q.vars)
    (hp : (a.prog popping).isSome) (hq' : InOrder idle (a.effect q popping).1 (a.effect q popping).2) :
    Asks (a.effect q popping).1 fun t => (a.own q.vars t).or (g.last t) := by
  intro t hw
  by_cases ht : a.Caller q.vars t
  · cases a with
    | service c =>
      cases popping with
      | some idx => cases hp
      | none =>
        obtain ⟨⟨run, hchosen, hr⟩, -⟩ := hq
        obtain rfl : run = t := Option.some.inj (hr.symm.trans ht)
        simp only [Act.effect, hr] at hw ⊢
        obtain ⟨n, hsleep, hret⟩ := Service.asleep hchosen hw
        refine ⟨c, n, ?_, hsleep.millisec, (Function.update_self ..).trans hret, hsleep.success, fun h hh => ?_⟩
        · rw [Act.own, if_pos hr]
          rfl
        · exact hsleep.place.symm.trans hh
    | _ => exact ht.elim
  · have hrises := a.rises q popping
    have hstate := (hrises.state t ht).resolve_right fun hup => hup.not_waits hw
    have hwaits : (q.vars.state t).Waits := hstate ▸ hw
    obtain ⟨c, n, hlast, hc, hret, hsucc, hlist⟩ := h t hwaits
    refine ⟨c, n, ?_, hc, ?_, hstate ▸ hsucc, fun k hk => hlist k ?_⟩
    · show (a.own q.vars t).or (g.last t) = some c
      rw [Act.own_eq_none ht]
      exact hlast
    · rcases a.told hq hf hp hwaits with hsame | ⟨hwoken, -⟩
      · exact hsame.trans hret
      · exact absurd hw hwoken.up.not_waits
    · refine hrises.place t ht k (fun he => ?_) hk
      exact (hq'.waits_out hw).2 (he ▸ hk)

/-- A call that has waited comes back with its timeout, or served. -/
theorem Act.answered {c : Service M S T} {r : Nat} (hq : InOrder idle q popping) (hf : a.Fit idle q.vars)
    (hp : (a.prog popping).isSome) (hasks : Asks q g.last) (ht : ¬ a.Caller q.vars t)
    (h : g.answer a q.vars (a.effect q popping).1.vars t = some (c, r)) :
    c.millisec ≠ none ∧ (∀ h, q.place t = some h → c.list = some h) ∧
      (q.vars.state t).success = c.success ∧ (r = c.timeout ∨ c.success = some r ∧ a.Wakes q t popping) := by
  unfold Ledger.answer at h
  rw [Act.own_eq_none ht] at h
  simp only at h
  split at h
  · rename_i hup
    obtain ⟨c', n, hlast, hc, hret, hsucc, hlist⟩ := hasks t hup.1
    rw [hlast] at h
    obtain ⟨rfl, rfl⟩ := Prod.mk.inj (Option.some.inj h)
    refine ⟨by rw [hc]; exact Option.some_ne_none n, hlist, hsucc, ?_⟩
    rcases a.told hq hf hp hup.1 with hsame | ⟨hwoken, hwakes⟩
    · exact .inl (hsame.trans hret)
    · exact .inr ⟨hsucc.symm.trans hwoken.ret, hwakes⟩
  · cases h

omit [DecidableEq M] [DecidableEq S] in
/-- A task that goes on waiting, or has not waited, is told nothing by the calls of others. -/
theorem Ledger.answer_eq_none {v v' : Vars M S T} (ho : a.own v t = none)
    (h : (v.state t).Waits → ¬ v'.up t) : g.answer a v v' t = none := by
  unfold Ledger.answer
  rw [ho]
  exact if_neg fun hw => h hw.1 hw.2

/-- The task of a call is told its result, unless it waits. -/
theorem Service.answer_own {c : Service M S T} (hr : q.vars.run = some x) :
    g.answer (.service c) q.vars (c.after q x).vars x =
      if ((c.effect q x).2.vars.state x).Waits then none else some (c, (c.effect q x).1) := by
  have hret : (c.after q x).vars.ret x = (c.effect q x).1 := Function.update_self ..
  unfold Ledger.answer Act.own
  simp only [hr, if_true, hret]
  rfl

omit [DecidableEq M] [DecidableEq S] [DecidableEq T] in
/-- A call is that of the task that runs. -/
theorem Service.not_caller {c : Service M S T} (hr : q.vars.run = some x) (ht : t ≠ x) :
    ¬ (Act.service c).Caller q.vars t := fun hc => ht (Option.some.inj (hc.symm.trans hr))

theorem Service.effect_act {c : Service M S T} (hr : q.vars.run = some x) :
    ((Act.service c).effect q none).1 = c.after q x := by
  simp only [Act.effect, hr]

/-! ## Runs -/

section Runs

variable [Fintype T] {s : Core (Kernel M S T)}

/-- What the start makes true of the kernel and its history, and every action keeps, is true of them. -/
theorem audited_keeps {J : Queues M S T → Option Nat → Ledger M S T → Prop}
    (hstart : ∀ q tokens, Fresh tokens q.vars → InOrder idle q none → J q none (.opened tokens))
    (hstep : ∀ q a popping g, InOrder idle q popping → a.Fit idle q.vars → (a.prog popping).isSome →
      Asks q g.last → J q popping g →
      J (a.effect q popping).1 (a.effect q popping).2 (g.note a popping q.vars (a.effect q popping).1.vars))
    (h : (audited idle).ReachIf (fun a p => Fits idle a p.1) (s, g)) :
    ∃ q, Rel s.kernel q ∧ InOrder idle q s.popping ∧ J q s.popping g := by
  have hinv := h.invariant (I := fun p => ∃ q, Rel p.1.kernel q ∧ InOrder idle q p.1.popping ∧
    Asks q p.2.last ∧ J q p.1.popping p.2) ?_ ?_
  · obtain ⟨q, hk, hq, -, hJ⟩ := hinv
    exact ⟨q, hk, hq, hJ⟩
  · rintro ⟨s, g⟩ ⟨hs, hg⟩
    change (board idle).start s at hs
    change g = .opened s.kernel.vars.tokens at hg
    subst hg
    obtain ⟨q, tokens, hk, hq, hfresh⟩ := board_start hs
    have hpop : s.popping = none := hs.2
    have htokens : s.kernel.vars.tokens = tokens := by rw [hk.1.vars, hfresh.tokens]
    refine ⟨q, hk, hq, fun t hw => absurd hw (hfresh.awake t), ?_⟩
    simp only [hpop, htokens] at hq ⊢
    exact hstart q tokens hfresh hq
  · rintro a ⟨s, g⟩ p' ⟨q, hk, hq, hasks, hJ⟩ hf hmove
    obtain ⟨s', hboard, rfl⟩ := Option.map_eq_some_iff.mp hmove
    obtain ⟨hpop, hk', hq'⟩ := step_follows hk hq hf hboard
    have hfit : a.Fit idle q.vars := by
      rw [← hk.1.vars]
      exact hf
    have hprog := step_prog hboard
    have hvars : s.kernel.vars = q.vars := hk.1.vars
    refine ⟨_, hk', hq', ?_, ?_⟩
    · rw [hpop] at hq'
      have hnext := hasks.step hq hfit hprog hq'
      simp only [Ledger.note, hvars]
      exact hnext
    · simp only [hpop, hvars, hk'.1.vars]
      exact hstep q a s.popping g hq hfit hprog hasks hJ

end Runs

/-! ## Requests -/

/-- The requests that are still to be served. -/
def inbox (v : Vars M S T) (popping : Option Nat) : List (Option (T ⊕ S) × BitVec 16) :=
  v.desk.queue (popping.getD v.psq_last)

omit [DecidableEq M] [DecidableEq S] [DecidableEq T] in
theorem InOrder.ring (hq : InOrder idle q popping) : q.vars.desk.Ring (popping.getD q.vars.psq_last) := by
  cases popping with
  | none => exact hq.2
  | some idx => exact hq.2

/-- An action puts its request behind the others, and what it serves is the oldest. -/
theorem Act.effect_inbox (hq : InOrder idle q popping) (hf : a.Fit idle q.vars) (hp : (a.prog popping).isSome) :
    inbox q.vars popping ++ (a.request q.vars).toList =
      (a.serves q.vars popping).toList ++ inbox (a.effect q popping).1.vars (a.effect q popping).2 := by
  have hring := hq.ring
  have hrequest : ∀ e arg, q.vars.psq_count < os_fifo_size →
      inbox (q.request e arg).vars popping = inbox q.vars popping ++ [(some e, arg)] := fun e arg hc =>
    Desk.push_queue hring hc
  cases a with
  | service c =>
    cases popping with
    | some idx => cases hp
    | none =>
      obtain ⟨⟨run, hchosen, hr⟩, -⟩ := hq
      simp only [Act.effect, hr]
      have hdesk : (c.after q run).vars.desk = q.vars.desk := c.effect_desk q run
      unfold inbox
      rw [hdesk, show (c.after q run).vars.psq_last = q.vars.psq_last from congrArg Desk.last hdesk]
      exact List.append_nil _
  | tick =>
    cases popping with
    | some idx => cases hp
    | none =>
      obtain ⟨⟨run, hchosen, hr⟩, -⟩ := hq
      simp only [Act.effect, hr]
      have hdesk : (q.systick run).switched.vars.desk = q.vars.desk := congrArg Words.desk (systick_words q run)
      unfold inbox
      rw [hdesk, show (q.systick run).switched.vars.psq_last = q.vars.psq_last from congrArg Desk.last hdesk]
      exact List.append_nil _
  | raise t f =>
    simp only [Act.effect, Act.request, Act.serves, Queues.raise]
    split
    · split
      · rename_i hact
        rw [hact]
        exact List.append_nil _
      · rename_i u hact
        rw [hact]
        exact (hrequest (.inl u) f hf.2).symm
    · exact List.append_nil _
  | post r =>
    simp only [Act.effect, Act.request, Act.serves, Queues.postSem]
    split
    · exact (hrequest (.inr r) 0 hf).symm
    · exact List.append_nil _
  | pendSV =>
    cases popping with
    | some idx => cases hp
    | none =>
      obtain ⟨⟨run, hchosen, hr⟩, -⟩ := hq
      simp only [Act.effect, hr]
      exact List.append_nil _
  | pop =>
    cases popping with
    | none => cases hp
    | some idx =>
      simp only [Act.effect, Act.serves, Act.request, Option.bind_some]
      by_cases hc : q.vars.psq_count = 0
      · rw [if_pos hc, if_pos hc]
        have hdesk : (q.resume idx).switched.vars.desk = { q.vars.desk with last := idx } :=
          congrArg Words.desk (Moved.next (q.edit fun v => { v with psq_last := idx })).words
        unfold inbox
        rw [hdesk, show (q.resume idx).switched.vars.psq_last = idx from congrArg Desk.last hdesk]
        exact List.append_nil _
      · obtain ⟨e, he⟩ := Desk.head hring hc
        have he : q.vars.psq_id idx = some e := he
        have hdesk := serve_desk q e (q.vars.psq_arg idx)
        rw [if_neg hc, if_neg hc]
        simp only [he]
        unfold inbox
        rw [hdesk]
        refine (List.append_nil _).trans ((Desk.pop_queue hring hc).trans ?_)
        rw [Desk.slot, show q.vars.desk.id ((some idx).getD q.vars.psq_last) = some e from he]
        rfl

/-- **Requests are served in the order made**, each of them once: what has been asked for is what has been
served, and behind it what is still in the queue. -/
theorem posts_in_order [Fintype T] {s : Core (Kernel M S T)}
    (h : (audited idle).ReachIf (fun a p => Fits idle a p.1) (s, g)) :
    g.posted = g.served ++ inbox s.kernel.vars s.popping := by
  obtain ⟨q, hk, hq, hJ⟩ := audited_keeps
    (J := fun q popping g => g.posted = g.served ++ inbox q.vars popping) (fun q tokens hfresh _ => by
      unfold inbox Desk.queue
      rw [show q.vars.desk.count = 0 from hfresh.psq_count]
      rfl) (fun q a popping g hq hf hp _ hJ => by
      show g.posted ++ _ = g.served ++ _ ++ _
      rw [hJ, List.append_assoc, List.append_assoc, Act.effect_inbox hq hf hp]) h
  rw [hk.1.vars]
  exact hJ

/-- The kernel `pair` with its history, after an interrupt has released the semaphore. -/
def pairPosted : Core (Kernel Unit Unit (Fin 3)) × Ledger Unit Unit (Fin 3) :=
  ((audited pairIdle).step (.post ()) (⟨pair, none⟩, .opened pair.vars.tokens)).get rfl

theorem pairPosted_step : (audited 2).step (.post ()) (⟨pair, none⟩, .opened pair.vars.tokens) =
    some pairPosted := (Option.some_get _).symm

theorem posts_in_order_pair :
    pairPosted.2.posted = pairPosted.2.served ++ inbox pairPosted.1.kernel.vars pairPosted.1.popping :=
  have hreach : (audited 2).ReachIf (fun a p => Fits 2 a p.1) pairPosted :=
    .step (.start ⟨pair_start, rfl⟩) pair_post_fits pairPosted_step
  posts_in_order hreach

example : inbox pairPosted.1.kernel.vars none = [(some (.inr ()), 0)] := by decide

end Expedition.Rtx
