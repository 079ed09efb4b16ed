import Expedition.Rtx.Timing

/-!
# Time slices end

`rt_chk_robin` gives the running task `os_robintout` ticks; at the last of them it goes behind the ready tasks
of its priority.

* `Clock.tick` — what a tick does to the clock while a task runs; `systick_clock` — the kernel's tick does it.
* `Clock.Sliced` — a slice that has been begun is shorter than `os_robintout`; `board_sliced` — it is in every
  reachable state.
* `systick_yields` — where the slice is up, a rival of the same priority runs next.
* `slices_end` — **with a rival ready, fewer than `os_robintout` ticks in a row leave a task running.**
-/

namespace Expedition.Rtx

open Queues

variable {M S T : Type} [DecidableEq T] {c : Clock T} {x : T}

/-! ## The clock -/

/-- The ticks that are left of the slice. -/
def Clock.left (c : Clock T) : Nat := (c.robin_time + 65536 - u16 c.os_time) % 65536

/-- The clock after a tick that has found `x` running. -/
def Clock.tick (c : Clock T) (x : T) : Clock T :=
  let begun := if c.robin_task ≠ some x then
    { c with robin_task := some x, robin_time := u16 (u16 c.os_time + c.robin_tout + 65535) } else c
  let checked := if begun.robin_time = u16 begun.os_time then { begun with robin_task := none } else begun
  { checked with os_time := u32 (c.os_time + 1) }

/-- A slice that has been begun. -/
structure Clock.Sliced (c : Clock T) : Prop where
  tout : c.robin_tout = u16 os_rrobin
  time : c.robin_task ≠ none → c.robin_time < 65536
  left : c.robin_task ≠ none → c.left + 2 ≤ os_robintout

/-- A tick begins a slice, goes on with it or ends it. -/
theorem Clock.Sliced.tick (h : c.Sliced) (x : T) : (c.tick x).Sliced ∧
    ((c.tick x).robin_task = none ∨ (c.tick x).robin_task = some x ∧
      (c.tick x).left + 1 ≤ if c.robin_task = some x then c.left else os_robintout - 1) := by
  have htout : c.robin_tout = 5 := h.tout.trans (by decide)
  by_cases hx : c.robin_task = some x
  · have htime := h.time (by rw [hx]; exact Option.some_ne_none x)
    have hleft := h.left (by rw [hx]; exact Option.some_ne_none x)
    by_cases hup : c.robin_time = u16 c.os_time
    · have htick : c.tick x = { c with robin_task := none, os_time := u32 (c.os_time + 1) } := by
        simp only [Clock.tick, hx, ne_eq, not_true_eq_false, if_false, hup, if_true]
      rw [htick]
      exact ⟨⟨h.tout, fun hne => absurd rfl hne, fun hne => absurd rfl hne⟩, .inl rfl⟩
    · have htick : c.tick x = { c with os_time := u32 (c.os_time + 1) } := by
        simp only [Clock.tick, hx, ne_eq, not_true_eq_false, if_false, hup]
      have hless : (c.tick x).left + 1 ≤ c.left := by
        rw [htick]
        unfold Clock.left u16 u32 at *
        simp only
        omega
      rw [if_pos hx]
      refine ⟨⟨?_, fun _ => ?_, fun _ => ?_⟩, .inr ⟨?_, hless⟩⟩
      · rw [htick]
        exact h.tout
      · rw [htick]
        exact htime
      · omega
      · rw [htick]
        exact hx
  · have htick : c.tick x =
        { c with
          robin_task := some x
          robin_time := u16 (u16 c.os_time + c.robin_tout + 65535)
          os_time := u32 (c.os_time + 1) } := by
      have hne : u16 (u16 c.os_time + c.robin_tout + 65535) ≠ u16 c.os_time := by
        rw [htout]
        unfold u16
        omega
      simp only [Clock.tick, hx, ne_eq, not_false_eq_true, if_true, hne, if_false]
    have hfour : (c.tick x).left = 3 := by
      rw [htick, htout]
      unfold Clock.left u16 u32
      simp only
      omega
    rw [if_neg hx, hfour]
    refine ⟨⟨?_, fun _ => ?_, fun _ => ?_⟩, .inr ⟨?_, by decide⟩⟩
    · rw [htick]
      exact h.tout
    · rw [htick]
      exact Nat.mod_lt _ (by decide)
    · rw [hfour]
      decide
    · rw [htick]

/-! ## The tick of the running task -/

variable [DecidableEq M] [DecidableEq S] {q : Queues M S T} {idle y t : T} {P : T → Prop} {l : List T}

/-- The kernel when the tick has put the running task in front and begun its slice, if it had to. -/
def Queues.begun (q : Queues M S T) (x : T) : Queues M S T :=
  (q.toFront x).edit fun v =>
    if v.robin_task ≠ some x then
      { v with robin_task := some x, robin_time := u16 (u16 v.os_time + v.robin_tout + 65535) }
    else v

theorem robin_begun (q : Queues M S T) (x : T) : (q.toFront x).robin = (q.begun x).swapRobin := by
  have hfirst : ((q.toFront x).queue .rdy).head? = some x := congrArg List.head? (toFront_queue q x)
  unfold Queues.robin Queues.begun
  rw [hfirst]
  split
  · rename_i hne
    simp only [Queues.edit, if_pos hne]
  · rename_i heq
    simp only [Queues.edit, if_neg heq]

theorem begun_rdy (q : Queues M S T) (x : T) : (q.begun x).queue .rdy = x :: q.queue .rdy :=
  toFront_queue q x

theorem begun_clock (q : Queues M S T) (x : T) :
    (q.begun x).vars.clock = if q.vars.robin_task ≠ some x then
      { q.vars.clock with
        robin_task := some x, robin_time := u16 (u16 q.vars.os_time + q.vars.robin_tout + 65535) }
    else q.vars.clock := by
  show Vars.clock (if q.vars.robin_task ≠ some x then _ else _) = _
  split <;> rfl

theorem begun_task (q : Queues M S T) (x : T) : (q.begun x).vars.robin_task = some x := by
  refine (congrArg Clock.robin_task (begun_clock q x)).trans ?_
  split
  · rfl
  · rename_i heq
    exact not_ne_iff.mp heq

theorem begun_prio (q : Queues M S T) (x : T) : (q.begun x).vars.prio = q.vars.prio := by
  show Vars.prio (if q.vars.robin_task ≠ some x then _ else _) = _
  split <;> rfl

theorem begun_time (q : Queues M S T) (x : T) : (q.begun x).vars.os_time = q.vars.os_time := by
  refine (congrArg Clock.os_time (begun_clock q x)).trans ?_
  split <;> rfl

/-- The end of the slice: the task goes behind its rivals. -/
def Queues.swapped (q : Queues M S T) (x : T) : Queues M S T :=
  ((q.edit fun v => { v with robin_task := none }).take x).put .rdy x

theorem swapRobin_begun (q : Queues M S T) (x : T) : (q.begun x).swapRobin =
    if (q.begun x).vars.robin_time = u16 q.vars.os_time then (q.begun x).swapped x else q.begun x := by
  unfold Queues.swapRobin
  rw [begun_time, begun_rdy]
  rfl

theorem swapped_clock (q : Queues M S T) (x : T) :
    (q.swapped x).vars.clock = { q.vars.clock with robin_task := none } := by
  show Vars.clock (Queues.take _ x).vars = _
  rw [take_vars]
  rfl

/-- What is left of the clock at the end of the tick. -/
theorem systick_swapRobin (q : Queues M S T) (x : T) : (q.systick x).vars.clock =
    { (q.begun x).swapRobin.vars.clock with os_time := u32 ((q.begun x).swapRobin.vars.os_time + 1) } := by
  rw [← robin_begun]
  exact congrArg Words.clock ((Moved.tick ((q.toFront x).robin.edit fun v =>
    { v with os_time := u32 (v.os_time + 1) })).trans (Moved.next _)).words

/-- What a tick does to the clock. -/
theorem systick_clock (q : Queues M S T) (x : T) : (q.systick x).vars.clock = q.vars.clock.tick x := by
  have hbegun : (q.begun x).vars.clock = if q.vars.clock.robin_task ≠ some x then
      { q.vars.clock with
        robin_task := some x
        robin_time := u16 (u16 q.vars.clock.os_time + q.vars.clock.robin_tout + 65535) }
    else q.vars.clock := begun_clock q x
  have htime : (q.begun x).vars.robin_time = (q.begun x).vars.clock.robin_time := rfl
  have hos : (q.begun x).vars.clock.os_time = q.vars.os_time := begun_time q x
  unfold Clock.tick
  simp only
  rw [systick_swapRobin, swapRobin_begun, ← hbegun, htime, hos]
  split
  · rw [show ((q.begun x).swapped x).vars.os_time = q.vars.os_time from
      (congrArg Clock.os_time (swapped_clock _ x)).trans hos, swapped_clock]
    rfl
  · rw [begun_time]
    rfl

/-! ## A rival gets its turn -/

omit [DecidableEq T] in
/-- Behind a task of its priority, a task is not the first. -/
theorem putPrio_head {prio : T → Nat} (hl : Falling prio l) (hx : x ∉ l) (hy : y ∈ l) (hp : prio y = prio x) :
    (putPrio prio x l).head? ≠ some x := by
  cases l with
  | nil => cases hy
  | cons z l =>
    have hz : prio x ≤ prio z := by
      rw [← hp]
      rcases List.mem_cons.mp hy with rfl | hy
      · exact le_refl _
      · exact (falling_cons.mp hl).1 y hy
    have hne : z ≠ x := fun he => hx (he ▸ List.mem_cons_self)
    rw [putPrio_cons, if_pos hz]
    exact fun he => hne (Option.some.inj he)

omit [DecidableEq T] in
theorem putPrio_head_of_ne {prio : T → Nat} (ht : t ≠ x) (hl : l.head? ≠ some x) :
    (putPrio prio t l).head? ≠ some x := by
  cases l with
  | nil => exact fun he => ht (Option.some.inj he)
  | cons z l =>
    rw [putPrio_cons]
    by_cases hz : prio t ≤ prio z
    · rw [if_pos hz]
      exact hl
    · rw [if_neg hz]
      exact fun he => ht (Option.some.inj he)

theorem take_rdy (ht : t ∉ q.queue .rdy) : (q.take t).queue .rdy = q.queue .rdy := by
  cases hp : q.place t with
  | none => rw [take_none hp]
  | some h =>
    rw [take_some hp]
    show Function.update q.queue h _ .rdy = _
    by_cases hh : Head.rdy = h
    · subst hh
      rw [Function.update_self, List.erase_of_not_mem ht]
    · rw [Function.update_of_ne hh]

/-- A task that is not the first of the ready ones does not become it when others are made ready. -/
theorem releases_head (hnd : l.Nodup) (hl : ∀ t ∈ l, t ≠ x ∧ t ∉ q.queue .rdy)
    (h : (q.queue .rdy).head? ≠ some x) : ((l.foldl Queues.release q).queue .rdy).head? ≠ some x := by
  induction l generalizing q with
  | nil => exact h
  | cons t l ih =>
    obtain ⟨htx, htq⟩ := hl t List.mem_cons_self
    obtain ⟨htl, hnd⟩ := List.nodup_cons.mp hnd
    refine ih hnd (fun u hu => ?_) ?_
    · obtain ⟨hux, huq⟩ := hl u (List.mem_cons_of_mem t hu)
      have hut : u ≠ t := fun he => htl (he ▸ hu)
      exact ⟨hux, ((Sleeps.take q u t).trans (Sleeps.toReady _ hut)).rdy huq⟩
    · show (((q.take t).toReady t).queue .rdy).head? ≠ some x
      rw [toReady_queue, take_rdy htq]
      exact putPrio_head_of_ne htx h

/-- The ready list after the end of the slice. -/
theorem swapped_rdy (q : Queues M S T) (x : T) :
    ((q.begun x).swapped x).queue .rdy = putPrio q.vars.prio x (q.queue .rdy) := by
  have hplace : ((q.begun x).edit fun v => { v with robin_task := none }).place x = some .rdy :=
    Function.update_self ..
  have htake : (Queues.take ((q.begun x).edit fun v => { v with robin_task := none }) x).queue .rdy =
      q.queue .rdy := by
    rw [take_some hplace]
    show Function.update (q.begun x).queue .rdy (((q.begun x).queue .rdy).erase x) .rdy = _
    rw [Function.update_self, begun_rdy, List.erase_cons_head]
  refine (toReady_queue (Queues.take ((q.begun x).edit fun v => { v with robin_task := none }) x) x).trans ?_
  rw [htake, take_vars]
  show putPrio (q.begun x).vars.prio x _ = _
  rw [begun_prio]

/-- A tick that leaves no slice has ended one. -/
theorem systick_swapped (hup : (q.systick x).vars.robin_task = none) :
    (q.toFront x).robin = (q.begun x).swapped x := by
  rw [robin_begun, swapRobin_begun]
  refine if_pos (by_contra fun hne => ?_)
  have htask : (q.systick x).vars.robin_task = (q.begun x).swapRobin.vars.robin_task :=
    congrArg Clock.robin_task (systick_swapRobin q x)
  rw [htask, swapRobin_begun, if_neg hne, begun_task] at hup
  cases hup

/-- The tasks whose time is up do not put the task back in front. -/
theorem swapped_tick (hq : Chosen idle P q x []) (hy : y ∈ q.queue .rdy) (hp : q.vars.prio y = q.vars.prio x)
    (f : Vars M S T → Vars M S T) : ((((q.begun x).swapped x).edit f).tick.queue .rdy).head? ≠ some x := by
  have hdelay : ((q.begun x).swapped x).delay = q.delay := take_delay
  refine releases_head ?_ (fun t ht => ?_) ?_
  · refine List.Nodup.sublist ((List.takeWhile_sublist _).map _) ?_
    show (((q.begun x).swapped x).delay.map Prod.fst).Nodup
    rw [hdelay]
    exact hq.sound.wf.delayed
  · have hdelayed : t ∈ q.delayed := by
      obtain ⟨p, hmem, rfl⟩ := List.mem_map.mp ht
      refine List.mem_map_of_mem ?_
      rw [← hdelay]
      exact (List.takeWhile_sublist _).subset hmem
    have htx : t ≠ x := fun he => hq.awake (he ▸ hdelayed)
    refine ⟨htx, fun hm => ?_⟩
    change t ∈ ((q.begun x).swapped x).queue .rdy at hm
    rw [swapped_rdy, mem_putPrio] at hm
    exact hq.sound.awake t ((hq.sound.wf.place .rdy t).mp (hm.resolve_left htx)) hdelayed
  · show (((q.begun x).swapped x).queue .rdy).head? ≠ some x
    rw [swapped_rdy]
    exact putPrio_head (hq.sound.falling .rdy) (hq.sound.wf.out hq.out .rdy) hy hp

/-- **Where the slice is up, a rival runs next.** -/
theorem systick_yields (hq : Chosen idle P q x []) (hy : y ∈ q.queue .rdy) (hp : q.vars.prio y = q.vars.prio x)
    (hup : (q.systick x).vars.robin_task = none) : (q.systick x).vars.new_tsk ≠ some x := by
  have hrobin := hq.suspend.robin.edit (f := fun v => { v with os_time := u32 (v.os_time + 1) })
    ⟨rfl, rfl, rfl, rfl, rfl, rfl, rfl, rfl⟩
  have hidle := (hrobin.tick.wf.place .rdy idle).mpr (hrobin.tick.demon.resolve_left List.not_mem_nil)
  obtain ⟨z, l, hz⟩ := List.exists_cons_of_ne_nil (List.ne_nil_of_mem hidle)
  have hnext : (q.systick x).vars.new_tsk = some z := by
    unfold Queues.systick
    rw [next_eq hz]
    rfl
  have hhead := swapped_tick hq hy hp fun v => { v with os_time := u32 (v.os_time + 1) }
  rw [← systick_swapped hup, hz] at hhead
  rw [hnext]
  exact hhead

/-! ## The clock along a run -/

/-- Nothing but the tick does anything to the clock. -/
theorem Act.effect_clock {a : Act M S T} (ha : a ≠ .tick) (q : Queues M S T) (popping : Option Nat) :
    (a.effect q popping).1.vars.clock = q.vars.clock := by
  cases a with
  | service c =>
    cases popping with
    | some idx => rfl
    | none =>
      simp only [Act.effect]
      split
      · exact c.effect_clock q _
      · rfl
  | tick => exact absurd rfl ha
  | raise t f =>
    show (q.raise t f).vars.clock = _
    unfold Queues.raise
    split
    · split <;> rfl
    · rfl
  | post s =>
    show (q.postSem s).vars.clock = _
    unfold Queues.postSem
    split <;> rfl
  | pendSV =>
    cases popping with
    | some idx => rfl
    | none =>
      simp only [Act.effect]
      split <;> rfl
  | pop =>
    cases popping with
    | none => rfl
    | some idx =>
      simp only [Act.effect]
      split
      · exact congrArg Words.clock (Moved.next (q.edit fun v => { v with psq_last := idx })).words
      · split
        · rename_i e _
          cases e with
          | inl t => exact congrArg Words.clock (evtPsh_words q t (q.vars.psq_arg idx))
          | inr s =>
            refine (congrArg Words.clock (semPsh_words q s)).trans ?_
            cases q.queue (.scb s) <;> rfl
        · rfl

theorem tick_clock (hr : q.vars.run = some x) :
    ((Act.tick : Act M S T).effect q none).1.vars.clock = q.vars.clock.tick x := by
  simp only [Act.effect, hr]
  exact systick_clock q x

theorem Act.sliced {a : Act M S T} {popping : Option Nat} (h : q.vars.clock.Sliced) :
    (a.effect q popping).1.vars.clock.Sliced := by
  by_cases ha : a = .tick
  · subst ha
    cases popping with
    | some idx => exact h
    | none =>
      cases hr : q.vars.run with
      | none =>
        simp only [Act.effect, hr]
        exact h
      | some x =>
        rw [tick_clock hr]
        exact (h.tick x).1
  · rw [Act.effect_clock ha]
    exact h

variable [Fintype T] {s s₀ : Core (Kernel M S T)}

/-- In every reachable state a slice that has been begun is shorter than `os_robintout`. -/
theorem board_sliced (h : (board idle).ReachIf (Fits idle) s) : s.kernel.vars.clock.Sliced := by
  refine h.invariant_of (J := fun s => ∃ q, Rel s.kernel q ∧ InOrder idle q s.popping)
    (I := fun s => s.kernel.vars.clock.Sliced) (fun s => board_inOrder) ?_ ?_
  · intro s hs
    obtain ⟨q, tokens, hk, -, hfresh⟩ := board_start hs
    rw [hk.1.vars]
    exact ⟨hfresh.robin_tout, fun hne => absurd hfresh.robin_task hne, fun hne => absurd hfresh.robin_task hne⟩
  · rintro a s s' ⟨q, hk, hq⟩ hc hf hstep
    obtain ⟨-, hk', -⟩ := step_follows hk hq hf hstep
    rw [hk.1.vars] at hc
    rw [hk'.1.vars]
    exact Act.sliced hc

/-- At each tick the task `x` is running, another of its priority is ready, and `x` goes on. -/
def Contested (idle x : T) (a : Act M S T) (p : Core (Kernel M S T) × Nat) : Prop :=
  Fits idle a p.1 ∧ (a = .tick → p.1.kernel.vars.run = some x ∧
    (∃ y, y ≠ x ∧ Live idle p.1.kernel.vars y ∧ p.1.kernel.vars.state y = .READY ∧
      p.1.kernel.vars.prio y = p.1.kernel.vars.prio x) ∧
    ∀ s, (board idle).step a p.1 = some s → s.kernel.vars.run = some x)

/-- **Time slices end**: with another task of its priority ready at each, a task goes on after fewer than
`os_robintout` ticks in a row. -/
theorem slices_end {k : Nat} (hs : (board idle).ReachIf (Fits idle) s₀)
    (h : (watch idle s₀).ReachIf (Contested idle x) (s, k)) : k < os_robintout := by
  refine (h.invariant (I := fun p => ∃ q, Rel p.1.kernel q ∧ InOrder idle q p.1.popping ∧
    q.vars.clock.Sliced ∧
    (p.2 = 0 ∨ q.vars.clock.robin_task = some x ∧ p.2 + q.vars.clock.left < os_robintout)) ?_ ?_).elim ?_
  · rintro p rfl
    obtain ⟨q, hk, hq⟩ := board_inOrder hs
    have hsliced := board_sliced hs
    rw [hk.1.vars] at hsliced
    exact ⟨q, hk, hq, hsliced, .inl rfl⟩
  · rintro a ⟨s, k⟩ p' ⟨q, hk, hq, hsliced, hcount⟩ ⟨hfit, htick⟩ hmove
    obtain ⟨s', hboard, rfl⟩ := Option.map_eq_some_iff.mp hmove
    obtain ⟨-, hk', hq'⟩ := step_follows hk hq hfit hboard
    refine ⟨_, hk', hq', Act.sliced hsliced, ?_⟩
    by_cases ha : a = .tick
    · subst ha
      obtain ⟨hrun, ⟨y, hyx, hlive, hready, hprio⟩, hgoes⟩ := htick rfl
      have hgoes := hgoes s' hboard
      have hprog := step_prog hboard
      cases hp : s.popping with
      | some idx =>
        rw [hp] at hprog
        cases hprog
      | none =>
        simp only [hp] at hq hk' ⊢
        rw [hk.1.vars] at hrun hlive hready hprio
        rw [hk'.1.vars] at hgoes
        obtain ⟨⟨x', hchosen, hr⟩, -⟩ := hq
        obtain rfl := Option.some.inj (hr.symm.trans hrun)
        have hrival : y ∈ q.queue .rdy := hchosen.sound.ready_mem
          (fun u hu => List.mem_singleton.mp hu ▸ hchosen.running) hlive hready
        rw [tick_clock hr]
        rcases (hsliced.tick x').2 with hup | ⟨htask, hleft⟩
        · rw [← systick_clock] at hup
          simp only [Act.effect, hr] at hgoes
          exact absurd hgoes (systick_yields hchosen hrival hprio hup)
        · refine .inr ⟨htask, ?_⟩
          show k + 1 + (q.vars.clock.tick x').left < os_robintout
          have hfive : os_robintout = 5 := rfl
          by_cases hx : q.vars.clock.robin_task = some x'
          · rw [if_pos hx] at hleft
            have hshort := hsliced.left (by rw [hx]; exact Option.some_ne_none x')
            rcases hcount with rfl | ⟨-, hcount⟩ <;> omega
          · rw [if_neg hx] at hleft
            obtain rfl := hcount.resolve_right fun hc => hx hc.1
            omega
    · have hticks : a.ticks = 0 := by
        cases a with
        | tick => exact absurd rfl ha
        | _ => rfl
      rw [Act.effect_clock ha, hticks]
      exact hcount
  · rintro q ⟨-, -, -, rfl | ⟨-, hlt⟩⟩
    · decide
    · exact Nat.lt_of_le_of_lt (Nat.le_add_right ..) hlt

/-- The kernel `peers` after a tick. -/
def peersTicked : Core (Kernel Unit Unit (Fin 3)) × Nat :=
  ((watch pairIdle ⟨peers, none⟩).step .tick (⟨peers, none⟩, 0)).get rfl

theorem peersTicked_step : (watch 2 ⟨peers, none⟩).step .tick (⟨peers, none⟩, 0) = some peersTicked :=
  (Option.some_get _).symm

theorem slices_end_peers : peersTicked.2 < os_robintout := by
  have hgoes : ∀ s, (board 2).step .tick ⟨peers, none⟩ = some s → s.kernel.vars.run = some 0 := by
    intro s hs
    have hticked := peersTicked_step
    simp only [watch, hs, Option.map_some] at hticked
    have hsame : s = peersTicked.1 := congrArg Prod.fst (Option.some.inj hticked)
    rw [hsame]
    decide
  have hrival : ∃ y : Fin 3, y ≠ 0 ∧ Live 2 peers.vars y ∧ peers.vars.state y = .READY ∧
      peers.vars.prio y = peers.vars.prio 0 := ⟨1, by decide, .inr ⟨1, by decide⟩, by decide, by decide⟩
  have hreach : (watch 2 ⟨peers, none⟩).ReachIf (Contested 2 0) peersTicked :=
    .step (a := .tick) (.start rfl) ⟨trivial, fun _ => ⟨by decide, hrival, hgoes⟩⟩ peersTicked_step
  exact slices_end (.start peers_start) hreach

/-- At the last tick of the slice the other thread runs. -/
example : ((List.replicate os_robintout .tick).foldlM (fun s a => (board pairIdle).step a s)
    ⟨peers, none⟩).map (fun s => s.kernel.vars.run) = some (some 1) := by decide

end Expedition.Rtx
