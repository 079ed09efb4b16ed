import Expedition.Rtx.Rises
import Expedition.Rtx.System

/-!
# What an action does to a task that waits

Whatever the kernel is asked to do, a task that waits stays as it is, is woken by what it waits for, or
is made ready by the tick that is its date; or the action names it.

* `Service.Wakes`, `Service.Names` — the calls that can wake a task, and those that create or end it.
* `Service.sleeps`, `systick_sleeps`, `Act.sleeps` — one action, for a task that is not ready.
* `Service.rises`, `Act.rises` — no action puts a task to sleep but the one whose call it is.
-/

namespace Expedition.Rtx

open Queues

variable {M S T : Type} [DecidableEq M] [DecidableEq S] [DecidableEq T] {q q' q'' : Queues M S T}
  {idle x t run : T} {P : T → Prop}

/-! ## The tick -/

theorem Sleeps.releases {l : List T} (hl : x ∉ l) : Sleeps x q (l.foldl Queues.release q) := by
  induction l generalizing q with
  | nil => exact Sleeps.refl x q
  | cons t l ih =>
    rw [List.mem_cons, not_or] at hl
    exact ((Sleeps.take q x t).trans (Sleeps.toReady _ hl.1)).trans (ih hl.2)

theorem releases_state {l : List T} (hl : x ∈ l) : (l.foldl Queues.release q).vars.state x = .READY := by
  induction l generalizing q with
  | nil => cases hl
  | cons t l ih =>
    by_cases hx : x ∈ l
    · exact ih hx
    · obtain rfl := (List.mem_cons.mp hl).resolve_right hx
      rw [List.foldl_cons, (Sleeps.releases hx).state, release_vars]
      exact Function.update_self ..

omit [DecidableEq M] [DecidableEq S] [DecidableEq T] in
/-- What is due at `n` is what comes before the later dates. -/
theorem mem_due {n d : Nat} {l : List (T × Nat)} (hl : l.Pairwise fun a b => a.2 ≤ b.2) :
    (x, d) ∈ (l.takeWhile fun p => p.2 ≤ n) ↔ (x, d) ∈ l ∧ d ≤ n := by
  have hsplit := List.takeWhile_append_dropWhile (p := fun p : T × Nat => decide (p.2 ≤ n)) (l := l)
  constructor
  · intro h
    have hle := List.mem_takeWhile_imp h
    exact ⟨(List.takeWhile_sublist _).subset h, of_decide_eq_true hle⟩
  · rintro ⟨hm, hd⟩
    rw [← hsplit, List.mem_append] at hm
    refine hm.resolve_right fun h => ?_
    have := lt_of_mem_dropWhile hl h
    omega

/-- The tick leaves a task alone whose time is not up. -/
theorem tick_sleeps (hs : q.delay.Pairwise fun a b => a.2 ≤ b.2) (hx : ∀ d, (x, d) ∈ q.delay → q.now + 1 < d) :
    Sleeps x { q with now := q.now + 1 } q.tick := by
  have hdate : Sleeps x { q with now := q.now + 1 }
      { q with now := q.now + 1, delay := q.delay.dropWhile fun p => p.2 ≤ q.now + 1 } := by
    refine ⟨rfl, rfl, fun d => ⟨fun h => (List.dropWhile_sublist _).subset h, fun h => ?_⟩, rfl, id⟩
    change (x, d) ∈ q.delay at h
    rw [← List.takeWhile_append_dropWhile (p := fun p : T × Nat => decide (p.2 ≤ q.now + 1)) (l := q.delay),
      List.mem_append, mem_due hs] at h
    refine h.resolve_left fun hdue => ?_
    have := hx d hdue.1
    omega
  refine hdate.trans (Sleeps.releases fun hm => ?_)
  obtain ⟨⟨_, d⟩, hp, rfl⟩ := List.mem_map.mp hm
  obtain ⟨hmem, hd⟩ := (mem_due hs).mp hp
  have := hx d hmem
  omega

/-- A task whose time is up is ready after the tick, with the result it had. -/
theorem tick_ready (hs : q.delay.Pairwise fun a b => a.2 ≤ b.2) (hx : (x, q.now + 1) ∈ q.delay) :
    q.tick.vars.state x = .READY ∧ q.tick.vars.ret x = q.vars.ret x := by
  have hdue : (x, q.now + 1) ∈ q.delay.takeWhile fun p => p.2 ≤ q.now + 1 := (mem_due hs).mpr ⟨hx, le_refl _⟩
  refine ⟨releases_state (List.mem_map_of_mem hdue), ?_⟩
  rw [(Moved.tick q).ret]

/-! ## The calls -/

/-- The call creates the task `x`, or ends it. -/
def Service.Names (v : Vars M S T) (x : T) : Service M S T → Prop
  | .threadCreate t p => t = x ∧ -3 ≤ p ∧ p ≤ 3
  | .threadTerminate t => v.os_active_TCB (v.task_id t - 1) = some x
  | _ => False

/-- The call may wake the task `x`. -/
def Service.Wakes (q : Queues M S T) (x : T) : Service M S T → Prop
  | .mutexRelease m => ∃ l, q.queue (.mucb m) = x :: l
  | .semaphoreRelease s => ∃ l, q.queue (.scb s) = x :: l
  | .signalSet _ _ => q.vars.state x = .WAIT_AND ∨ q.vars.state x = .WAIT_OR
  | _ => False

omit [DecidableEq M] [DecidableEq S] [DecidableEq T] in
theorem Woken.later (h : Woken x q q') (hs : q''.vars.state x = q'.vars.state x)
    (hr : q''.vars.ret x = q'.vars.ret x) : Woken x q q'' := by
  refine ⟨?_, by rw [hr, h.ret]⟩
  unfold Vars.up
  rw [hs]
  exact h.up

omit [DecidableEq M] [DecidableEq S] [DecidableEq T] in
/-- A task in a waiting list has the state that says so. -/
theorem Sound.state_of_place {hand : List T} {h : Head M S} (hq : Sound idle P q hand) (ht : q.place t = some h)
    (hh : t ∉ hand) : Rests (some h) (q.vars.state t) := by
  have hr := hq.rests t (hq.placed t h ht) hh
  rwa [ht] at hr

/-- A call leaves another task that is not ready as it is, or wakes it. -/
theorem Service.sleeps {c : Service M S T} (hq : Chosen idle P q run []) (hi : run ≠ idle) (hr : x ≠ run)
    (hp : q.place x ≠ some .rdy) (hn : ¬ c.Names q.vars x) :
    Sleeps x q (c.effect q run).2 ∨ Woken x q (c.effect q run).2 ∧ c.Wakes q x := by
  have hx : x ∉ q.queue .rdy := fun hm => hp ((hq.sound.wf.place .rdy x).mp hm)
  have hstate : ∀ {h t}, q.place t = some h → Rests (some h) (q.vars.state t) := fun ht =>
    hq.sound.state_of_place ht fun hm => hq.ne_of_place ht (List.mem_singleton.mp hm)
  have hfirst : ∀ {h t l}, q.queue h = t :: l → q.place t = some h := fun hl =>
    (hq.sound.wf.place _ _).mp (hl ▸ List.mem_cons_self)
  cases c with
  | mutexWait m n => exact .inl (mutWait_sleeps hx hp hr)
  | mutexRelease m =>
    exact mutRelease_sleeps hx hr (List.ne_nil_of_mem (hq.idle_ready hi)) (fun t ht => hstate ht)
      fun t l hl => hfirst hl
  | signalWait f n => exact .inl (evtWait_sleeps hx hr)
  | signalSet t f =>
    simp only [Service.effect]
    split
    · simp only
      split
      · exact .inl (Sleeps.refl x q)
      · exact evtSet_sleeps hr
    · exact .inl (Sleeps.refl x q)
  | signalClear t f =>
    simp only [Service.effect]
    split
    · simp only
      split
      · exact .inl (Sleeps.refl x q)
      · exact .inl (Sleeps.edit (f := fun v => v.setEvents _ _) rfl rfl)
    · exact .inl (Sleeps.refl x q)
  | semaphoreWait s n => exact .inl (semWait_sleeps hx hr)
  | semaphoreRelease s =>
    simp only [Service.effect]
    split
    · exact .inl (Sleeps.refl x q)
    · exact semSend_sleeps hr fun t l hl => hstate (hfirst hl)
  | delay n =>
    simp only [Service.effect]
    split
    · exact .inl (Sleeps.refl x q)
    · exact .inl (Sleeps.block hx hr _ _)
  | threadYield => exact .inl (Sleeps.pass hx hr)
  | threadCreate t p =>
    simp only [Service.effect]
    split
    · exact .inl (Sleeps.refl x q)
    · have ht : x ≠ t := fun he => hn ⟨he.symm, by omega, by omega⟩
      exact .inl ((enrol_sleeps q ht _ _).trans (Sleeps.dispatch _ hr ht))
  | threadTerminate t =>
    simp only [Service.effect]
    split
    · split
      · exact .inl (finish_sleeps hx hr)
      · split
        · exact .inl (Sleeps.refl x q)
        · rename_i u hu
          have hxu : x ≠ u := fun he => hn (hu.trans (congrArg some he.symm))
          exact .inl (kill_sleeps q hxu _)
    · exact .inl (Sleeps.refl x q)
  | threadSetPriority t p =>
    simp only [Service.effect]
    split
    · split
      · exact .inl (Sleeps.refl x q)
      · split
        · exact .inl (Sleeps.refl x q)
        · split
          · have hprio : Sleeps x q (q.edit fun v => v.setPrio run (p + 4).toNat) :=
              Sleeps.edit (f := fun v => v.setPrio run _) rfl rfl
            exact .inl (hprio.trans (Sleeps.yieldTo (hprio.rdy hx) hr _))
          · exact .inl (reprio_sleeps hx hp hr)
    · exact .inl (Sleeps.refl x q)

/-- After the call its task may not be running any more. -/
def Service.Leaves : Service M S T → Prop
  | .mutexWait _ _ => True
  | .signalWait _ _ => True
  | .semaphoreWait _ _ => True
  | .delay _ => True
  | .threadTerminate _ => True
  | _ => False

/-- A call puts no task but its own to sleep. -/
theorem Service.rises (c : Service M S T) (q : Queues M S T) (run : T) {E : T → Prop} (hE : c.Leaves → E run) :
    Rises E q (c.effect q run).2 := by
  cases c with
  | mutexWait m n => exact mutWait_rises (hE trivial)
  | mutexRelease m => exact mutRelease_rises
  | signalWait f n => exact evtWait_rises (hE trivial)
  | signalSet t f =>
    simp only [Service.effect]
    split
    · simp only
      split
      · exact Rises.refl _ q
      · exact evtSet_rises
    · exact Rises.refl _ q
  | signalClear t f =>
    simp only [Service.effect]
    split
    · simp only
      split
      · exact Rises.refl _ q
      · exact clear_rises q _ f
    · exact Rises.refl _ q
  | semaphoreWait s n => exact semWait_rises (hE trivial)
  | semaphoreRelease s =>
    simp only [Service.effect]
    split
    · exact Rises.refl _ q
    · exact semSend_rises
  | delay n =>
    simp only [Service.effect]
    split
    · exact Rises.refl _ q
    · exact Rises.block (hE trivial)
  | threadYield => exact Rises.pass q run
  | threadCreate t p =>
    simp only [Service.effect]
    split
    · exact Rises.refl _ q
    · exact enrol_rises.trans (Rises.dispatch _ run t)
  | threadTerminate t =>
    simp only [Service.effect]
    split
    · split
      · exact finish_rises (hE trivial)
      · split
        · exact Rises.refl _ q
        · exact kill_rises
    · exact Rises.refl _ q
  | threadSetPriority t p =>
    simp only [Service.effect]
    split
    · split
      · exact Rises.refl _ q
      · split
        · exact Rises.refl _ q
        · split
          · have hprio : Rises E q (q.edit fun v => v.setPrio run (p + 4).toNat) :=
              Rises.edit rfl rfl rfl
            exact hprio.trans (Rises.yieldTo _ run _)
          · exact reprio_rises
    · exact Rises.refl _ q

/-! ## The actions -/

omit [DecidableEq M] [DecidableEq S] [DecidableEq T] in
theorem Sound.not_ready {hand : List T} (hq : Sound idle P q hand) (hx : x ∈ q.delayed) :
    q.place x ≠ some .rdy ∧ x ∉ q.queue .rdy := by
  have hp : q.place x ≠ some .rdy := fun hp => hq.awake x hp hx
  exact ⟨hp, fun hm => hp ((hq.wf.place .rdy x).mp hm)⟩

/-- The tick ends a wait whose time is up, and no other. -/
theorem systick_sleeps {d : Nat} (hq : Chosen idle P q run []) (hx : (x, d) ∈ q.delay) :
    q.now + 1 < d ∧ Sleeps x { q with now := q.now + 1 } (q.systick run) ∨
      d = q.now + 1 ∧ (q.systick run).vars.up x ∧ (q.systick run).vars.ret x = q.vars.ret x := by
  have hmem : x ∈ q.delayed := List.mem_map_of_mem hx
  have hr : x ≠ run := fun he => hq.awake (he ▸ hmem)
  have hx' := (hq.sound.not_ready hmem).2
  have hfront := Sleeps.toFront q hr
  have hpre := (hfront.trans (robin_sleeps (hfront.rdy hx'))).trans
    (Sleeps.edit (f := fun v => { v with os_time := u32 (v.os_time + 1) }) rfl rfl)
  have hs := (hq.suspend.robin.edit (f := fun v => { v with os_time := u32 (v.os_time + 1) })
    ⟨rfl, rfl, rfl, rfl, rfl, rfl, rfl, rfl⟩)
  unfold Queues.systick
  revert hs hpre
  generalize (q.toFront run).robin.edit (fun v => { v with os_time := u32 (v.os_time + 1) }) = q₁
  intro hpre hs
  have hd : (x, d) ∈ q₁.delay := (hpre.date d).mpr hx
  have hnow := hpre.now
  by_cases hdue : d = q₁.now + 1
  · subst hdue
    obtain ⟨hstate, hret⟩ := tick_ready hs.dates hd
    refine .inr ⟨by rw [hnow], up_next (.inl hstate), ?_⟩
    rw [(Moved.next _).ret, hret, hpre.ret]
  · have hahead := hs.ahead _ hd
    have hlt : q.now + 1 < d := by
      change q₁.now < d at hahead
      omega
    have honly : ∀ d', (x, d') ∈ q₁.delay → q₁.now + 1 < d' := by
      intro d' hd'
      obtain rfl : d' = d := (Prod.ext_iff.mp (List.inj_on_of_nodup_map hs.wf.delayed hd' hd rfl)).2
      omega
    have htick := tick_sleeps hs.dates honly
    have hnext := Sleeps.next (htick.rdy (hpre.rdy hx'))
    refine .inl ⟨hlt, ?_⟩
    have hstart : Sleeps x { q with now := q.now + 1 } { q₁ with now := q₁.now + 1 } :=
      ⟨hpre.state, hpre.ret, hpre.date, congrArg (· + 1) hnow, hpre.rdy⟩
    exact (hstart.trans htick).trans hnext

/-- The call ends the task `x`. -/
def Service.Ends (v : Vars M S T) (x : T) : Service M S T → Prop
  | .threadTerminate t => v.os_active_TCB (v.task_id t - 1) = some x
  | _ => False

def Act.Ends (v : Vars M S T) (x : T) : Act M S T → Prop
  | .service c => c.Ends v x
  | _ => False

omit [DecidableEq M] [DecidableEq S] [DecidableEq T] in
theorem request_sleeps (q : Queues M S T) (e : T ⊕ S) (arg : BitVec 16) : Sleeps x q (q.request e arg) :=
  ⟨rfl, rfl, fun _ => Iff.rfl, rfl, id⟩

omit [DecidableEq M] [DecidableEq S] [DecidableEq T] in
theorem raise_sleeps (q : Queues M S T) (t : T) (f : BitVec 16) : Sleeps x q (q.raise t f) := by
  unfold Queues.raise
  split
  · split
    · exact Sleeps.refl x q
    · exact request_sleeps q _ _
  · exact Sleeps.refl x q

omit [DecidableEq M] [DecidableEq S] [DecidableEq T] in
theorem postSem_sleeps (q : Queues M S T) (s : S) : Sleeps x q (q.postSem s) := by
  unfold Queues.postSem
  split
  · exact request_sleeps q _ _
  · exact Sleeps.refl x q

/-- The action creates the task `x`, or ends it. -/
def Act.Names (v : Vars M S T) (x : T) : Act M S T → Prop
  | .service c => c.Names v x
  | _ => False

/-- The action may wake the task `x`. -/
def Act.Wakes (q : Queues M S T) (x : T) : Act M S T → Option Nat → Prop
  | .service c, _ => c.Wakes q x
  | .pop, some idx => q.vars.psq_count ≠ 0 ∧
      ((∃ t, q.vars.psq_id idx = some (.inl t)) ∧ (q.vars.state x = .WAIT_AND ∨ q.vars.state x = .WAIT_OR) ∨
        ∃ s, q.vars.psq_id idx = some (.inr s) ∧ ∃ l, q.queue (.scb s) = x :: l)
  | _, _ => False

/-- What happens to a task that is neither ready nor running, in any action but the tick. -/
theorem Act.sleeps {a : Act M S T} {popping : Option Nat} (hq : InOrder idle q popping)
    (hf : a.Fit idle q.vars) (hp : (a.prog popping).isSome) (ha : a ≠ .tick)
    (hr : popping = none → q.vars.run ≠ some x) (hx : q.place x ≠ some .rdy) (hn : ¬ a.Names q.vars x) :
    Sleeps x q (a.effect q popping).1 ∨ Woken x q (a.effect q popping).1 ∧ a.Wakes q x popping := by
  cases a with
  | tick => exact absurd rfl ha
  | service c =>
    cases popping with
    | some idx => cases hp
    | none =>
      obtain ⟨⟨run, hchosen, hrun⟩, -⟩ := hq
      have hi : run ≠ idle := fun he => hf.1 (he ▸ hrun)
      have hne : x ≠ run := fun he => hr rfl (he ▸ hrun)
      simp only [Act.effect, hrun]
      rcases c.sleeps hchosen hi hne hx hn with h | ⟨h, hw⟩
      · exact .inl (h.trans (Sleeps.edit (f := fun v => { v.setRet run _ with run := v.new_tsk }) rfl
          (Function.update_of_ne hne ..)))
      · exact .inr ⟨h.later rfl (Function.update_of_ne hne ..), hw⟩
  | raise t f => exact .inl (raise_sleeps q t f)
  | post s => exact .inl (postSem_sleeps q s)
  | pendSV =>
    cases popping with
    | some idx => cases hp
    | none =>
      obtain ⟨⟨run, hchosen, hrun⟩, -⟩ := hq
      have hne : x ≠ run := fun he => hr rfl (he ▸ hrun)
      simp only [Act.effect, hrun]
      exact .inl (Sleeps.toFront q hne)
  | pop =>
    cases popping with
    | none => cases hp
    | some idx =>
      obtain ⟨hsound, hring⟩ := hq
      have hx' : x ∉ q.queue .rdy := fun hm => hx ((hsound.wf.place .rdy x).mp hm)
      simp only [Act.effect]
      split
      · have hlast : Sleeps x q (q.edit fun v => { v with psq_last := idx }) :=
          Sleeps.edit (f := fun v => { v with psq_last := idx }) rfl rfl
        exact .inl ((hlast.trans (Sleeps.next (hlast.rdy hx'))).trans
          (Sleeps.edit (f := fun v => { v with run := v.new_tsk }) rfl rfl))
      · rename_i hc
        obtain ⟨e, he⟩ := Desk.head hring hc
        have he : q.vars.psq_id idx = some e := he
        have hdone : ∀ {q'}, Sleeps x q q' →
            Sleeps x q (q'.edit fun v => { v with psq_count := v.psq_count - 1 }) := fun h =>
          h.trans (Sleeps.edit (f := fun v => { v with psq_count := v.psq_count - 1 }) rfl rfl)
        simp only [he]
        cases e with
        | inl t =>
          rcases evtPsh_sleeps (x := x) (q := q) (t := t) (f := q.vars.psq_arg idx) with h | ⟨h, hw⟩
          · exact .inl (hdone h)
          · exact .inr ⟨h.later rfl rfl, hc, .inl ⟨⟨t, he⟩, hw⟩⟩
        | inr s =>
          have hstate : ∀ t l, q.queue (.scb s) = t :: l → q.vars.state t = .WAIT_SEM := by
            intro t l hl
            have ht : q.place t = some (.scb s) := (hsound.wf.place _ t).mp (hl ▸ List.mem_cons_self)
            exact hsound.state_of_place ht List.not_mem_nil
          rcases semPsh_sleeps (x := x) hstate with h | ⟨h, hw⟩
          · exact .inl (hdone h)
          · exact .inr ⟨h.later rfl rfl, hc, .inr ⟨s, he, hw⟩⟩

/-- A live task is not created, and named only where it is ended. -/
theorem Act.not_names {a : Act M S T} {popping : Option Nat} (hq : InOrder idle q popping)
    (hf : a.Fit idle q.vars) (hp : (a.prog popping).isSome) (hx : Live idle q.vars x)
    (hend : ¬ a.Ends q.vars x) : ¬ a.Names q.vars x := by
  cases a with
  | service c =>
    cases c with
    | threadCreate t p =>
      rintro ⟨rfl, hlo, hhi⟩
      cases popping with
      | some idx => cases hp
      | none =>
        obtain ⟨⟨run, -, hrun⟩, -⟩ := hq
        exact (hf.2 run hrun hlo hhi).1 hx
    | threadTerminate t => exact hend
    | _ => exact id
  | _ => exact id

/-- What happens to a task with a date, in any action but the tick. -/
theorem Act.sleeps_dated {a : Act M S T} {popping : Option Nat} (hq : InOrder idle q popping)
    (hf : a.Fit idle q.vars) (hp : (a.prog popping).isSome) (ha : a ≠ .tick) (hx : x ∈ q.delayed)
    (hend : ¬ a.Ends q.vars x) :
    Sleeps x q (a.effect q popping).1 ∨ Woken x q (a.effect q popping).1 := by
  have hlive : Live idle q.vars x ∧ q.place x ≠ some .rdy ∧ (popping = none → q.vars.run ≠ some x) := by
    cases popping with
    | none =>
      obtain ⟨⟨run, hchosen, hrun⟩, -⟩ := hq
      refine ⟨hchosen.sound.dated x hx, (hchosen.sound.not_ready hx).1, fun _ he => ?_⟩
      obtain rfl := Option.some.inj (hrun.symm.trans he)
      exact hchosen.awake hx
    | some idx => exact ⟨hq.1.dated x hx, (hq.1.not_ready hx).1, nofun⟩
  have hnames := Act.not_names hq hf hp hlive.1 hend
  exact (a.sleeps hq hf hp ha hlive.2.2 hlive.2.1 hnames).imp_right And.left

/-- The task whose call the action is. -/
def Act.Caller (v : Vars M S T) (x : T) : Act M S T → Prop
  | .service _ => v.run = some x
  | _ => False

/-- An action puts no task to sleep but the one whose call it is. -/
theorem Act.rises (a : Act M S T) (q : Queues M S T) (popping : Option Nat) :
    Rises (a.Caller q.vars ·) q (a.effect q popping).1 := by
  have hrequest : ∀ {e : T ⊕ S} {arg : BitVec 16} {E : T → Prop}, Rises E q (q.request e arg) :=
    Rises.edit rfl rfl rfl
  have hswitch : ∀ {E : T → Prop} (q₁ : Queues M S T), Rises E q₁ q₁.switched := fun _ => Rises.edit rfl rfl rfl
  have hdone : ∀ {E : T → Prop} (q₁ : Queues M S T), Rises E q₁ (q₁.edit fun v =>
      { v with psq_count := v.psq_count - 1 }) := fun _ => Rises.edit rfl rfl rfl
  cases a with
  | service c =>
    cases popping with
    | some idx => exact Rises.refl _ q
    | none =>
      simp only [Act.effect]
      split
      · rename_i run hrun
        exact (c.rises q run fun _ => hrun).trans (Rises.edit (f := fun v => { v.setRet run _ with run := v.new_tsk })
          rfl rfl rfl)
      · exact Rises.refl _ q
  | tick =>
    cases popping with
    | some idx => exact Rises.refl _ q
    | none =>
      simp only [Act.effect]
      split
      · rename_i run _
        have htime : ∀ q₁ : Queues M S T, Rises (fun _ => False) q₁ (q₁.edit fun v =>
            { v with os_time := u32 (v.os_time + 1) }) := fun _ => Rises.edit rfl rfl rfl
        exact (((((Rises.toFront q run).trans (Rises.robin _)).trans (htime _)).trans (Rises.tick _)).trans
          (Rises.next _)).trans (hswitch _)
      · exact Rises.refl _ q
  | raise t f =>
    show Rises _ q (q.raise t f)
    unfold Queues.raise
    split
    · split
      · exact Rises.refl _ q
      · exact hrequest
    · exact Rises.refl _ q
  | post s =>
    show Rises _ q (q.postSem s)
    unfold Queues.postSem
    split
    · exact hrequest
    · exact Rises.refl _ q
  | pendSV =>
    cases popping with
    | some idx => exact Rises.refl _ q
    | none =>
      simp only [Act.effect]
      split
      · exact Rises.toFront q _
      · exact Rises.refl _ q
  | pop =>
    cases popping with
    | none => exact Rises.refl _ q
    | some idx =>
      simp only [Act.effect]
      split
      · have hlast : Rises (fun _ => False) q (q.edit fun v => { v with psq_last := idx }) :=
          Rises.edit rfl rfl rfl
        exact (hlast.trans (Rises.next _)).trans (hswitch _)
      · split
        · rename_i e _
          cases e with
          | inl t => exact evtPsh_rises.trans (hdone _)
          | inr s => exact semPsh_rises.trans (hdone _)
        · exact Rises.refl _ q

/-! ## Going to sleep -/

/-- The task `x` has gone to sleep with the timeout `n`, in the state `s` and the list `p`. -/
structure Abed (x : T) (n : Nat) (s : TaskState) (p : Option (Head M S)) (q q' : Queues M S T) : Prop where
  state : q'.vars.state x = s
  place : q'.place x = p
  date : n < 0xffff → (x, q.now + n) ∈ q'.delay
  now : q'.now = q.now

theorem next_place (hx : x ∉ q.queue .rdy) : q.next.place x = q.place x := by
  unfold Queues.next
  cases hl : q.queue .rdy with
  | nil => rfl
  | cons y l =>
    have hne : x ≠ y := fun he => hx (hl ▸ he ▸ List.mem_cons_self)
    exact take_place_of_ne hne

theorem block_abed {n : Nat} {s : TaskState} (hx : x ∉ q.queue .rdy) :
    Abed x n s (q.place x) q (q.block x n s) := by
  have hdelay : (q.delayFor x n).queue = q.queue ∧ (q.delayFor x n).place = q.place ∧
      (q.delayFor x n).now = q.now ∧ (n < 0xffff → (x, q.now + n) ∈ (q.delayFor x n).delay) := by
    unfold Queues.delayFor
    split
    · exact ⟨rfl, rfl, rfl, fun _ => mem_putDate.mpr (.inl rfl)⟩
    · exact ⟨rfl, rfl, rfl, fun hn => absurd hn ‹_›⟩
  obtain ⟨hqueue, hplace, hnow, hdate⟩ := hdelay
  unfold Queues.block
  generalize q.delayFor x n = q₁ at *
  have hx₁ : x ∉ (q₁.edit fun v => v.setState x s).queue .rdy := by
    rw [edit_queue, hqueue]
    exact hx
  have hnext := Sleeps.next hx₁
  refine ⟨?_, ?_, fun hn => (hnext.date _).mpr (hdate hn), hnext.now.trans hnow⟩
  · rw [hnext.state]
    exact Function.update_self ..
  · rw [next_place hx₁, edit_place, hplace]

/-- The time a call may wait, -/
def Service.millisec : Service M S T → Option Nat
  | .mutexWait _ n => some n
  | .signalWait _ n => some n
  | .semaphoreWait _ n => some n
  | .delay n => some n
  | _ => none

/-- the list it waits in, -/
def Service.list : Service M S T → Option (Head M S)
  | .mutexWait m _ => some (.mucb m)
  | .semaphoreWait s _ => some (.scb s)
  | _ => none

/-- what it returns when its time is up, -/
def Service.timeout : Service M S T → Nat
  | .mutexWait _ _ => osErrorTimeoutResource
  | .semaphoreWait _ _ => 0
  | _ => osEventTimeout

/-- and what it returns when it has been served while it waited; a delay never is. -/
def Service.success : Service M S T → Option Nat
  | .mutexWait _ _ => some osOK
  | .signalWait _ _ => some osEventSignal
  | .semaphoreWait _ _ => some 1
  | _ => none

/-- The call `c` with the time `n` has put its task to sleep. -/
structure Service.Asleep (c : Service M S T) (n : Nat) (x : T) (q q' : Queues M S T) : Prop where
  millisec : c.millisec = some n
  success : (q'.vars.state x).success = c.success
  place : q'.place x = c.list
  calm : q'.vars.satisfied x = false
  date : n < osWaitForever → (x, q.now + rt_ms2tick n) ∈ q'.delay
  now : q'.now = q.now

omit [DecidableEq M] [DecidableEq S] [DecidableEq T] in
theorem Abed.asleep {c : Service M S T} {n : Nat} {s : TaskState} (h : Abed x (rt_ms2tick n) s c.list q q')
    (hn : c.millisec = some n) (hs : s.success = c.success) (hc : q'.vars.satisfied x = false) :
    c.Asleep n x q q' := by
  refine ⟨hn, by rw [h.state, hs], h.place, hc, fun hlt => h.date ?_, h.now⟩
  rw [rt_ms2tick_eq hlt]
  omega

omit [DecidableEq M] [DecidableEq S] [DecidableEq T] in
theorem calm_of_state {v : Vars M S T} (ha : v.state x ≠ .WAIT_AND) (ho : v.state x ≠ .WAIT_OR) :
    v.satisfied x = false :=
  Bool.eq_false_iff.mpr fun h => (Vars.state_of_satisfied h).elim ha ho

theorem evtWait_abed {f : BitVec 16} {n : Nat} {b : Bool} (hx : x ∉ q.queue .rdy)
    (hrun : q.vars.state x = .RUNNING) (hw : ((q.evtWait x f n b).vars.state x).Waits) :
    ¬ q.vars.has x (f, b) ∧ n ≠ 0 ∧ (q.evtWait x f n b).vars.satisfied x = false ∧
      ∃ s, s.success = some osEventSignal ∧ Abed x n s (q.place x) q (q.evtWait x f n b) := by
  have hblock : ∀ s, Abed x n s (q.place x) q ((q.edit fun v => v.setWaits x f).block x n s) := by
    intro s
    obtain ⟨hstate, hplace, hdate, hnow⟩ := block_abed (q := q.edit fun v => v.setWaits x f) (n := n) (s := s) hx
    exact ⟨hstate, hplace, hdate, hnow⟩
  have hevents : ∀ s, ((q.edit fun v => v.setWaits x f).block x n s).vars.events x = q.vars.events x := fun s =>
    congrFun (Moved.block _ x n s).events x
  have hwaits : ∀ s, ((q.edit fun v => v.setWaits x f).block x n s).vars.waits x = f := by
    intro s
    rw [Moved.block _ x n s]
    exact Function.update_self ..
  revert hw
  unfold Queues.evtWait Vars.has
  cases b with
  | true =>
    simp only [if_true]
    split
    · exact fun hw => absurd hrun hw.ne_running
    · rename_i hhas
      split
      · exact fun hw => absurd hrun hw.ne_running
      · refine fun _ => ⟨hhas, ‹_›, ?_, .WAIT_AND, rfl, hblock _⟩
        unfold Vars.satisfied
        rw [(hblock .WAIT_AND).state, hevents, hwaits]
        exact decide_eq_false hhas
  | false =>
    simp only [Bool.false_eq_true, if_false]
    split
    · exact fun hw => absurd hrun hw.ne_running
    · rename_i hhas
      split
      · exact fun hw => absurd hrun hw.ne_running
      · refine fun _ => ⟨hhas, ‹_›, ?_, .WAIT_OR, rfl, hblock _⟩
        unfold Vars.satisfied
        rw [(hblock .WAIT_OR).state, hevents, hwaits]
        exact decide_eq_false hhas

/-- A call that puts its task to sleep is one that may wait; it leaves the result for the case that nothing
comes. -/
theorem Service.asleep {c : Service M S T} (hq : Chosen idle P q x []) (hw : ((c.effect q x).2.vars.state x).Waits) :
    ∃ n, c.Asleep n x q (c.effect q x).2 ∧ (c.effect q x).1 = c.timeout := by
  have hx : x ∉ q.queue .rdy := hq.sound.wf.out hq.out .rdy
  have hp : q.place x ≠ some .rdy := by
    rw [hq.out]
    exact nofun
  have hrun : q.vars.state x = .RUNNING := hq.running
  have hstays : ¬ c.Leaves → False := by
    intro hc
    rcases (c.rises q x fun h => absurd h hc : Rises (fun _ => False) q (c.effect q x).2).state x not_false with
      h | h
    · rw [h] at hw
      exact hw.ne_running hrun
    · exact h.not_waits hw
  cases c with
  | mutexWait m n =>
    refine ⟨n, ?_⟩
    revert hw
    simp only [Service.effect, Queues.mutWait]
    split
    · exact fun hw => absurd hrun hw.ne_running
    · rename_i hl
      split
      · exact fun hw => absurd hrun hw.ne_running
      · rename_i ho
        split
        · exact fun hw => absurd hrun hw.ne_running
        · rename_i hz
          have hinherit : Sleeps x q (q.inherit m x) := Sleeps.inherit hp
          have hput := hinherit.trans (Sleeps.put (h := .mucb m) (t := x) fun h => by cases h)
          have hbed := block_abed (n := rt_ms2tick n) (s := .WAIT_MUT) (hput.rdy hx)
          rw [put_place_self] at hbed
          have hfrom : Abed x (rt_ms2tick n) .WAIT_MUT (some (.mucb m)) q _ :=
            ⟨hbed.state, hbed.place, hput.now ▸ hbed.date, hbed.now.trans hput.now⟩
          intro _
          rw [if_neg (by simp [hl, ho]), if_neg fun h => hz ((rt_ms2tick_zero n).mpr h)]
          refine ⟨hfrom.asleep rfl rfl (calm_of_state ?_ ?_), rfl⟩ <;> rw [hfrom.state] <;> decide
  | signalWait f n =>
    obtain ⟨hhas, hz, hcalm, s, hs, hbed⟩ := evtWait_abed hx hrun hw
    rw [hq.out] at hbed
    refine ⟨n, hbed.asleep rfl hs hcalm, ?_⟩
    simp only [Service.effect]
    rw [if_neg hhas, if_neg fun h => hz ((rt_ms2tick_zero n).mpr h)]
    rfl
  | semaphoreWait s n =>
    refine ⟨n, ?_⟩
    revert hw
    simp only [Service.effect, Queues.semWait]
    split
    · exact fun hw => absurd hrun hw.ne_running
    · rename_i ht
      split
      · exact fun hw => absurd hrun hw.ne_running
      · have hput : Sleeps x q (q.put (.scb s) x) := Sleeps.put fun h => by cases h
        have hbed := block_abed (n := rt_ms2tick n) (s := .WAIT_SEM) (hput.rdy hx)
        rw [put_place_self] at hbed
        have hfrom : Abed x (rt_ms2tick n) .WAIT_SEM (some (.scb s)) q _ :=
          ⟨hbed.state, hbed.place, hput.now ▸ hbed.date, hbed.now.trans hput.now⟩
        intro _
        refine ⟨hfrom.asleep rfl rfl (calm_of_state ?_ ?_), not_ne_iff.mp ht⟩ <;> rw [hfrom.state] <;> decide
  | delay n =>
    refine ⟨n, ?_⟩
    revert hw
    simp only [Service.effect]
    split
    · exact fun hw => absurd hrun hw.ne_running
    · have hbed := block_abed (n := rt_ms2tick n) (s := .WAIT_DLY) hx
      rw [hq.out] at hbed
      intro _
      refine ⟨hbed.asleep rfl rfl (calm_of_state ?_ ?_), rfl⟩ <;> rw [hbed.state] <;> decide
  | threadTerminate t =>
    simp only [Service.effect] at hw
    split at hw
    · split at hw
      · have hend := Sleeps.next (x := x) (q := q.edit fun v =>
          { (v.setState x .INACTIVE).setActive (v.task_id x - 1) none with run := none }) hx
        have hstate : (q.finish x).vars.state x = .INACTIVE := hend.state.trans (Function.update_self ..)
        rw [hstate] at hw
        rcases hw with h | h | h | h | h <;> cases h
      · split at hw
        · exact absurd hrun hw.ne_running
        · change TaskState.Waits ((q.take _).vars.state x) at hw
          rw [take_vars] at hw
          exact absurd hrun hw.ne_running
    · exact absurd hrun hw.ne_running
  | mutexRelease | signalSet | signalClear | semaphoreRelease | threadYield | threadCreate
  | threadSetPriority => exact (hstays id).elim

end Expedition.Rtx
