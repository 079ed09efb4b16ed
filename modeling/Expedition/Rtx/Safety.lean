import Expedition.Rtx.Boot

/-!
# The kernel from reset on never faults

The kernel on its pointers, started with any threads and driven by any calls, ticks and interrupts that
fit, follows the same kernel on lists.

* `board` — the kernel on the pointers as a machine; `Fits` — the calls and interrupts are fit.
* `board_inOrder` — in every reachable state the pointers are those of lists in order.
* `kernel_serves` — **no reachable state faults.**
* `highest_runs` — **no ready task is ever above the one that runs.**
* `lists_follow_states` — **the pointers make sorted lists without a cycle, and a task is in the list its
  state says.**
-/

namespace Expedition.Rtx

open Queues Linked

variable {M S T : Type} [DecidableEq M] [DecidableEq S] [DecidableEq T] [Fintype T]

/-- The kernel has just been started, with some threads. -/
def Started (idle : T) (k : Kernel M S T) : Prop :=
  ∃ threads tokens, Startable idle threads ∧
    (boot idle threads).run Op.low (Kernel.cleared tokens) = (.ok (), k)

/-- The kernel on its pointers. -/
def board (idle : T) : Machine (Core (Kernel M S T)) (Act M S T) := rtx (Started idle) Op.low

/-- What is asked of the kernel is fit to be asked. -/
def Fits (idle : T) (a : Act M S T) (s : Core (Kernel M S T)) : Prop := a.Fit idle s.kernel.vars

variable {idle : T} {s s' : Core (Kernel M S T)} {a : Act M S T} {q : Queues M S T}

/-- An action on the pointers follows the same action on the lists. -/
theorem step_effect (hk : Rel s.kernel q) (hq : InOrder idle q s.popping) (hf : Fits idle a s)
    (hp : (a.prog s.popping).isSome) : ∃ s', (board idle).step a s = some s' ∧
      s'.popping = (a.effect q s.popping).2 ∧ Rel s'.kernel (a.effect q s.popping).1 ∧
      InOrder idle (a.effect q s.popping).1 s'.popping := by
  obtain ⟨p, hp⟩ := Option.isSome_iff_exists.mp hp
  have hf : a.Fit idle q.vars := by
    rw [← hk.1.vars]
    exact hf
  obtain ⟨hrun, hq'⟩ := a.prog_run hq hf hp
  obtain ⟨k', hrun', hk'⟩ := Prog.sim Op.sim p _ _ _ _ hk hrun
  refine ⟨⟨k', (a.effect q s.popping).2⟩, ?_, rfl, hk', hq'⟩
  simp only [board, rtx, hp, hrun']

theorem step_prog (h : (board idle).step a s = some s') : (a.prog s.popping).isSome := by
  cases hp : a.prog s.popping with
  | some p => rfl
  | none => simp [board, rtx, hp] at h

/-- What is not in order cannot happen: the step taken is the one on the lists. -/
theorem step_follows (hk : Rel s.kernel q) (hq : InOrder idle q s.popping) (hf : Fits idle a s)
    (h : (board idle).step a s = some s') : s'.popping = (a.effect q s.popping).2 ∧
      Rel s'.kernel (a.effect q s.popping).1 ∧ InOrder idle (a.effect q s.popping).1 s'.popping := by
  obtain ⟨s'', hstep, hrest⟩ := step_effect hk hq hf (step_prog h)
  rw [h] at hstep
  exact Option.some.inj hstep ▸ hrest

theorem boot_low {threads : List (T × Int)} (h : Startable idle threads) (tokens : S → Nat) :
    ∃ (k : Kernel M S T) (q : Queues M S T),
      (boot idle threads).run Op.low (Kernel.cleared tokens) = (.ok (), k) ∧ Rel k q ∧
        InOrder idle q none ∧ Fresh tokens q.vars := by
  obtain ⟨q, hrun, hq⟩ := boot_run (M := M) h tokens
  obtain ⟨k, hrun', hk⟩ := Prog.sim Op.sim _ _ _ _ _ (cleared_rel tokens) hrun
  exact ⟨k, q, hrun', hk, hq⟩

theorem board_start (h : (board idle).start s) : ∃ q tokens, Rel s.kernel q ∧ InOrder idle q s.popping ∧
    Fresh tokens q.vars := by
  obtain ⟨⟨threads, tokens, hstart, hrun⟩, hpop⟩ := h
  obtain ⟨k, q, hrun', hk, hq, hfresh⟩ := boot_low (M := M) hstart tokens
  rw [hrun] at hrun'
  cases hrun'
  exact ⟨q, tokens, hk, hpop ▸ hq, hfresh⟩

/-- **In every reachable state the pointers are those of lists in order.** -/
theorem board_inOrder (h : (board idle).ReachIf (Fits idle) s) :
    ∃ q, Rel s.kernel q ∧ InOrder idle q s.popping := by
  refine h.invariant (I := fun s => ∃ q, Rel s.kernel q ∧ InOrder idle q s.popping) ?_ ?_
  · intro s hs
    obtain ⟨q, _, hk, hq, -⟩ := board_start hs
    exact ⟨q, hk, hq⟩
  · rintro a s s' ⟨q, hk, hq⟩ hf hstep
    obtain ⟨-, hk', hq'⟩ := step_follows hk hq hf hstep
    exact ⟨_, hk', hq'⟩

/-- The kernel after a start with two threads, the second of them above the first. -/
def pair : Kernel Unit Unit (Fin 3) :=
  ((boot 2 [(0, 0), (1, 1)]).run Op.low (Kernel.cleared fun _ => 0)).2

/-- Its idle task. -/
def pairIdle : Fin 3 := 2

theorem pair_startable : Startable (2 : Fin 3) [(0, 0), (1, 1)] := by
  refine ⟨by decide, by decide, List.cons_ne_nil _ _, by decide, by decide⟩

theorem pair_start : (board 2).start ⟨pair, none⟩ :=
  ⟨⟨[(0, 0), (1, 1)], fun _ => 0, pair_startable, rfl⟩, rfl⟩

/-- The kernel after a start with two threads of one priority. -/
def peers : Kernel Unit Unit (Fin 3) :=
  ((boot 2 [(0, 0), (1, 0)]).run Op.low (Kernel.cleared fun _ => 0)).2

theorem peers_startable : Startable (2 : Fin 3) [(0, 0), (1, 0)] := by
  refine ⟨by decide, by decide, List.cons_ne_nil _ _, by decide, by decide⟩

theorem peers_start : (board 2).start ⟨peers, none⟩ :=
  ⟨⟨[(0, 0), (1, 0)], fun _ => 0, peers_startable, rfl⟩, rfl⟩

theorem pair_delay_fits (n : Nat) : Fits 2 (.service (.delay n)) ⟨pair, none⟩ := ⟨by decide, fun _ _ => trivial⟩

theorem pair_post_fits : Fits (2 : Fin 3) (.post ()) (⟨pair, none⟩ : Core (Kernel Unit Unit (Fin 3))) :=
  show pair.vars.psq_count < os_fifo_size by decide

omit [Fintype T] [DecidableEq M] [DecidableEq S] [DecidableEq T] in
/-- A live task that is ready is in the ready list, whoever is in hand. -/
theorem Sound.ready_mem {P : T → Prop} {hand : List T} {t : T} (hq : Sound idle P q hand)
    (hhand : ∀ t ∈ hand, q.vars.state t = .RUNNING) (ht : Live idle q.vars t)
    (hs : q.vars.state t = .READY) : t ∈ q.queue .rdy := by
  have hh : t ∉ hand := by
    intro hm
    rw [hhand t hm] at hs
    cases hs
  have hr := hq.rests t ht hh
  rw [hs] at hr
  refine (hq.wf.place .rdy t).mpr ?_
  cases hp : q.place t with
  | none =>
    rw [hp] at hr
    rcases hr with h | h | h <;> cases h
  | some h =>
    rw [hp] at hr
    cases h with
    | rdy => rfl
    | mucb m => cases hr
    | scb s => cases hr

/-- **The task that runs is the highest**: no live task that is ready is above it. -/
theorem highest_runs (h : (board idle).ReachIf (Fits idle) s) (hpop : s.popping = none) :
    ∃ x, s.kernel.vars.run = some x ∧ s.kernel.vars.state x = .RUNNING ∧ Live idle s.kernel.vars x ∧
      ∀ t, Live idle s.kernel.vars t → s.kernel.vars.state t = .READY →
        s.kernel.vars.prio t ≤ s.kernel.vars.prio x := by
  obtain ⟨q, hk, hq⟩ := board_inOrder h
  rw [hpop] at hq
  obtain ⟨⟨x, hx, hr⟩, -⟩ := hq
  rw [hk.1.vars]
  refine ⟨x, hr, hx.running, hx.live, fun t ht hs => hx.top t (hx.sound.ready_mem ?_ ht hs)⟩
  intro u hu
  rw [List.mem_singleton.mp hu]
  exact hx.running

theorem highest_runs_pair : ∃ x, pair.vars.run = some x ∧ pair.vars.state x = .RUNNING ∧
    Live 2 pair.vars x ∧ ∀ t, Live 2 pair.vars t → pair.vars.state t = .READY → pair.vars.prio t ≤ pair.vars.prio x :=
  highest_runs (.start pair_start) rfl

/-! ## What the pointers make -/

/-- The task `t` is in the list that the pointers make from the header `h` on. -/
def Kernel.In (k : Kernel M S T) (h : Head M S) (t : T) : Prop :=
  ∃ l, Chain XCB.tcb k.p_lnk (.head h) l ∧ t ∈ l

omit [Fintype T] [DecidableEq M] [DecidableEq S] [DecidableEq T] in
theorem Rel.in_iff {k : Kernel M S T} {h : Head M S} {t : T} (hk : Rel k q) :
    k.In h t ↔ q.place t = some h := by
  rw [← hk.1.wf.place]
  constructor
  · rintro ⟨l, hl, ht⟩
    rwa [(hk.1.links h).unique hl]
  · exact fun ht => ⟨_, hk.1.links h, ht⟩

/-- The lists of the kernel: what the pointers from each header lead through, and the delayed tasks with
the tick each is due at. -/
structure Listed (idle : T) (k : Kernel M S T) (lists : Head M S → List T) (dates : List (T × Nat))
    (now : Nat) : Prop where
  links : ∀ h, Chain XCB.tcb k.p_lnk (.head h) (lists h)
  backs : ∀ h, h.sem_mbx = true → Backs XCB.tcb k.p_rlnk (.head h) (lists h)
  nodup : ∀ h, (lists h).Nodup
  falling : ∀ h, Falling k.vars.prio (lists h)
  live : ∀ h t, t ∈ lists h → Live idle k.vars t
  dlinks : Chain DCB.tcb k.p_dlnk .os_dly (dates.map Prod.fst)
  dbacks : Backs DCB.tcb k.p_blnk .os_dly (dates.map Prod.fst)
  deltas : Diffs DCB.tcb k.delta_time now .os_dly dates
  once : (dates.map Prod.fst).Nodup
  ahead : ∀ p ∈ dates, now < p.2
  rising : dates.Pairwise fun a b => a.2 ≤ b.2

/-- The state of a task is that of a member of the list `h` where it is in one, and that of a task that waits
for signals or for its time where it is in none. -/
def Follows (k : Kernel M S T) (t : T) : Prop :=
  (∃ h, k.In h t ∧ (∀ h', k.In h' t → h' = h) ∧ Rests (some h) (k.vars.state t)) ∨
    (∀ h, ¬ k.In h t) ∧ Rests (none : Option (Head M S)) (k.vars.state t)

omit [Fintype T] [DecidableEq M] [DecidableEq S] [DecidableEq T] in
theorem Sound.follows {P : T → Prop} {hand : List T} {k : Kernel M S T} {t : T} (hk : Rel k q)
    (hq : Sound idle P q hand) (ht : Live idle k.vars t) (hh : t ∉ hand) : Follows k t := by
  rw [hk.1.vars] at ht
  have hr := hq.rests t ht hh
  rw [← hk.1.vars] at hr
  cases hp : q.place t with
  | some h =>
    rw [hp] at hr
    refine .inl ⟨h, hk.in_iff.mpr hp, fun h' h'in => ?_, hr⟩
    exact Option.some.inj ((hk.in_iff.mp h'in).symm.trans hp)
  | none =>
    rw [hp] at hr
    refine .inr ⟨fun h hin => ?_, hr⟩
    rw [hk.in_iff.mp hin] at hp
    cases hp

omit [Fintype T] [DecidableEq M] [DecidableEq S] [DecidableEq T] in
theorem Sound.listed {P : T → Prop} {hand : List T} {k : Kernel M S T} (hk : Rel k q)
    (hq : Sound idle P q hand) : Listed idle k q.queue q.delay q.now where
  links := hk.1.links
  backs := hk.1.backs
  nodup := hq.wf.nodup
  falling h := by rw [hk.1.vars]; exact hq.falling h
  live h t ht := by rw [hk.1.vars]; exact hq.placed t h ((hq.wf.place h t).mp ht)
  dlinks := hk.1.dlinks
  dbacks := hk.1.dbacks
  deltas := hk.1.diffs
  once := hq.wf.delayed
  ahead := hk.2
  rising := hq.dates

/-- **The pointers make sorted lists without a cycle**, and each live task but the running one is in the one
list that its state says. -/
theorem lists_follow_states (h : (board idle).ReachIf (Fits idle) s) :
    (∃ lists dates now, Listed idle s.kernel lists dates now) ∧
      ∀ t, Live idle s.kernel.vars t → (s.popping = none → s.kernel.vars.run ≠ some t) →
        Follows s.kernel t := by
  obtain ⟨q, hk, hq⟩ := board_inOrder h
  cases hp : s.popping with
  | none =>
    rw [hp] at hq
    obtain ⟨⟨x, hx, hr⟩, -⟩ := hq
    refine ⟨⟨_, _, _, hx.sound.listed hk⟩, fun t ht hne => hx.sound.follows hk ht fun hm => hne rfl ?_⟩
    rw [hk.1.vars, hr, List.mem_singleton.mp hm]
  | some idx =>
    rw [hp] at hq
    exact ⟨⟨_, _, _, hq.1.listed hk⟩, fun t ht _ => hq.1.follows hk ht List.not_mem_nil⟩

theorem lists_follow_states_pair : (∃ lists dates now, Listed 2 pair lists dates now) ∧
    ∀ t, Live 2 pair.vars t → ((none : Option Nat) = none → pair.vars.run ≠ some t) → Follows pair t :=
  lists_follow_states (.start pair_start)

end Expedition.Rtx
