import Expedition.Rtx.Safety
import Expedition.Rtx.Waiting

/-!
# Waits end on time

A task that waits with a timeout is woken by what it waits for, or by the tick at which its time is up.

* `watch` — the kernel while a task waits, with the ticks counted.
* `wait_ends` — **a wait of `n` milliseconds that times out has lasted `n` ticks, or 65534 where `n` is
  above; one that is served has been shorter.**
-/

namespace Expedition.Rtx

open Queues

variable {M S T : Type} [DecidableEq M] [DecidableEq S] [DecidableEq T] {q q' q'' : Queues M S T}
  {idle x t run : T} {P : T → Prop}

/-! ## The wait -/

def Act.ticks : Act M S T → Nat
  | .tick => 1
  | _ => 0

variable [Fintype T]

/-- The kernel from the state `s₀` on, with the ticks counted. -/
def watch (idle : T) (s₀ : Core (Kernel M S T)) : Machine (Core (Kernel M S T) × Nat) (Act M S T) where
  start p := p = (s₀, 0)
  step a p := ((board idle).step a p.1).map fun s => (s, p.2 + a.ticks)

/-- The task `x` waits, and what is asked of the kernel is fit and does not end it. -/
def Watched (idle x : T) (a : Act M S T) (p : Core (Kernel M S T) × Nat) : Prop :=
  (p.1.kernel.vars.state x).Waits ∧ Fits idle a p.1 ∧ ¬ a.Ends p.1.kernel.vars x

/-- A wait of the time `d` has ended after `k` ticks: served with the result `w`, or on time with `r`. -/
def Ended (x : T) (d r : Nat) (w : Option Nat) (v : Vars M S T) (k : Nat) : Prop :=
  v.up x ∧ (k < d ∧ w = some (v.ret x) ∨ k = d ∧ v.ret x = r)

/-- The task `x` waits since the tick `n`. -/
structure Since (x : T) (n d r : Nat) (w : Option Nat) (q : Queues M S T) (k : Nat) : Prop where
  waits : (q.vars.state x).Waits
  success : (q.vars.state x).success = w
  ret : q.vars.ret x = r
  date : (x, n + d) ∈ q.delay
  now : q.now = n + k
  lt : k < d

omit [DecidableEq M] [DecidableEq S] [DecidableEq T] [Fintype T] in
theorem Since.sleeps {n d r k : Nat} {w : Option Nat} (h : Since x n d r w q k) (hs : Sleeps x q q') :
    Since x n d r w q' k :=
  ⟨hs.state ▸ h.waits, hs.state ▸ h.success, hs.ret ▸ h.ret, (hs.date _).mpr h.date, hs.now.trans h.now, h.lt⟩

omit [Fintype T] in
/-- One action while a task waits. -/
theorem Since.step {n d r k : Nat} {w : Option Nat} {a : Act M S T} {popping : Option Nat}
    (h : Since x n d r w q k) (hq : InOrder idle q popping) (hf : a.Fit idle q.vars)
    (hp : (a.prog popping).isSome) (hend : ¬ a.Ends q.vars x) :
    Since x n d r w (a.effect q popping).1 (k + a.ticks) ∨
      Ended x d r w (a.effect q popping).1.vars (k + a.ticks) := by
  by_cases ha : a = .tick
  · subst ha
    cases popping with
    | some idx => cases hp
    | none =>
      obtain ⟨⟨run, hchosen, hr⟩, -⟩ := hq
      have hnow := h.now
      simp only [Act.effect, hr]
      rcases systick_sleeps hchosen h.date with ⟨hlt, hs⟩ | ⟨hd, hup, hret⟩
      · have hk : Since x n d r w { q with now := q.now + 1 } (k + 1) :=
          ⟨h.waits, h.success, h.ret, h.date, congrArg (· + 1) hnow, by omega⟩
        exact .inl (hk.sleeps (hs.trans (Sleeps.edit (f := fun v => { v with run := v.new_tsk }) rfl rfl)))
      · refine .inr ⟨hup, .inr ⟨?_, hret.trans h.ret⟩⟩
        show k + 1 = d
        omega
  · have hticks : a.ticks = 0 := by
      cases a with
      | tick => exact absurd rfl ha
      | _ => rfl
    rw [hticks]
    rcases a.sleeps_dated hq hf hp ha (List.mem_map_of_mem h.date) hend with hs | hs
    · exact .inl (h.sleeps hs)
    · exact .inr ⟨hs.up, .inl ⟨h.lt, h.success.symm.trans hs.ret⟩⟩

/-- **Waits end on time**: a call of `n` milliseconds that waits lasts for `min n 65534` ticks unless it is
served before; a delay lasts for them all. -/
theorem wait_ends {s s₁ s₂ : Core (Kernel M S T)} {c : Service M S T} {n k : Nat}
    (hs : (board idle).ReachIf (Fits idle) s) (hr : s.kernel.vars.run = some x) (hc : c.millisec = some n)
    (hn : n < osWaitForever) (hf : Fits idle (.service c) s)
    (hstep : (board idle).step (.service c) s = some s₁) (hw : (s₁.kernel.vars.state x).Waits)
    (h : (watch idle s₁).ReachIf (Watched idle x) (s₂, k)) :
    (s₂.kernel.vars.state x).Waits ∧ k < min n 65534 ∨
      Ended x (min n 65534) c.timeout c.success s₂.kernel.vars k := by
  obtain ⟨q, hk, hq⟩ := board_inOrder hs
  obtain ⟨hpop, hk₁, hq₁⟩ := step_follows hk hq hf hstep
  cases hp : s.popping with
  | some idx =>
    have hprog := step_prog hstep
    rw [hp] at hprog
    cases hprog
  | none =>
    rw [hp] at hq hpop hk₁ hq₁
    obtain ⟨⟨x', hchosen, hrun⟩, -⟩ := id hq
    obtain rfl : x' = x := by
      rw [hk.1.vars, hrun] at hr
      exact Option.some.inj hr
    simp only [Act.effect, hrun] at hpop hk₁ hq₁
    rw [hk₁.1.vars] at hw
    obtain ⟨n', hsleep, hret⟩ := Service.asleep hchosen hw
    obtain rfl : n' = n := Option.some.inj (hsleep.millisec.symm.trans hc)
    have hdate := hsleep.date hn
    have hnow : (c.after q x').now = q.now := hsleep.now
    have hret : (c.after q x').vars.ret x' = c.timeout := (Function.update_self ..).trans hret
    rw [← rt_ms2tick_eq hn]
    refine (h.invariant (I := fun p => ∃ q', Rel p.1.kernel q' ∧ InOrder idle q' p.1.popping ∧
      (Since x' q.now (rt_ms2tick n') c.timeout c.success q' p.2 ∨
        Ended x' (rt_ms2tick n') c.timeout c.success q'.vars p.2)) ?_ ?_).elim ?_
    · rintro p rfl
      refine ⟨_, hk₁, hq₁, .inl ⟨hw, hsleep.success, hret, hdate, hnow, ?_⟩⟩
      have hrest := hq₁
      rw [hpop] at hrest
      obtain ⟨⟨y, hy, -⟩, -⟩ := hrest
      have hahead : (c.after q x').now < q.now + rt_ms2tick n' := hy.sound.ahead _ hdate
      rw [hnow] at hahead
      exact Nat.lt_of_add_lt_add_left hahead
    · rintro a p p' ⟨q', hk', hq', hstand⟩ ⟨hwaits, hfit, hend⟩ hmove
      obtain ⟨s', hboard, rfl⟩ := Option.map_eq_some_iff.mp hmove
      obtain ⟨hpop', hk'', hq''⟩ := step_follows hk' hq' hfit hboard
      rw [hk'.1.vars] at hwaits hend
      have hf' : a.Fit idle q'.vars := by
        rw [← hk'.1.vars]
        exact hfit
      have hsince := hstand.resolve_right fun hended => hended.1.not_waits hwaits
      exact ⟨_, hk'', hq'', hsince.step hq' hf' (step_prog hboard) hend⟩
    · rintro q' ⟨hk', -, hstand⟩
      rw [hk'.1.vars]
      exact hstand.imp_left fun h => ⟨h.waits, h.lt⟩

/-- The kernel `pair` after its upper thread has asked to sleep for two milliseconds, -/
def pairAsleep : Core (Kernel Unit Unit (Fin 3)) :=
  ((board pairIdle).step (.service (.delay 2)) ⟨pair, none⟩).get rfl

theorem pairAsleep_step : (board 2).step (.service (.delay 2)) ⟨pair, none⟩ = some pairAsleep :=
  (Option.some_get _).symm

/-- and the two ticks after that. -/
def pairTicked : Core (Kernel Unit Unit (Fin 3)) × Nat :=
  ((watch pairIdle pairAsleep).step .tick (pairAsleep, 0)).get rfl

theorem pairTicked_step : (watch 2 pairAsleep).step .tick (pairAsleep, 0) = some pairTicked :=
  (Option.some_get _).symm

def pairAwake : Core (Kernel Unit Unit (Fin 3)) × Nat :=
  ((watch pairIdle pairAsleep).step .tick pairTicked).get rfl

theorem pairAwake_step : (watch 2 pairAsleep).step .tick pairTicked = some pairAwake :=
  (Option.some_get _).symm

theorem wait_ends_pair : (pairAwake.1.kernel.vars.state 1).Waits ∧ pairAwake.2 < min 2 65534 ∨
    Ended 1 (min 2 65534) (Service.delay 2 : Service Unit Unit (Fin 3)).timeout
      (Service.delay 2 : Service Unit Unit (Fin 3)).success pairAwake.1.kernel.vars pairAwake.2 :=
  have hwaits : (pairAsleep.kernel.vars.state 1).Waits := .inl (by decide)
  have hticked : (pairTicked.1.kernel.vars.state 1).Waits := .inl (by decide)
  have hone : (watch 2 pairAsleep).ReachIf (Watched 2 1) pairTicked :=
    .step (a := .tick) (.start rfl) ⟨hwaits, trivial, not_false⟩ pairTicked_step
  wait_ends (.start pair_start) (by decide) rfl (by decide) (pair_delay_fits 2) pairAsleep_step hwaits
    (.step (a := .tick) hone ⟨hticked, trivial, not_false⟩ pairAwake_step)

example : pairAwake.1.kernel.vars.state 1 = .RUNNING ∧ pairAwake.2 = 2 := by decide

end Expedition.Rtx
