import Expedition.Rtx.Safety
import Expedition.Rtx.Waiting

/-!
# Nobody waits in vain

A task that waits for a mutex, a semaphore or signals waits for what is not there: no release, no signal
and no request of an interrupt is ever missed by a task that it would be enough for.

* `Act.calm` — no action leaves a task asleep on signals it has.
* `nobody_waits_in_vain` — **whatever a task waits for is held by another task, spent, or not yet
  signalled.**
-/

namespace Expedition.Rtx

open Queues

variable {M S T : Type} [DecidableEq M] [DecidableEq S] [DecidableEq T] {q : Queues M S T}
  {idle x t : T} {P : T → Prop}

/-- The task of a call does not go to sleep on signals it has. -/
theorem Service.calm {c : Service M S T} (hq : Chosen idle P q x []) :
    (c.effect q x).2.vars.satisfied x = false := by
  by_cases hw : ((c.effect q x).2.vars.state x).Waits
  · obtain ⟨n, hsleep, -⟩ := Service.asleep hq hw
    exact hsleep.calm
  · refine calm_of_state (fun hs => hw ?_) fun hs => hw ?_ <;> rw [hs]
    · exact .inr (.inr (.inl rfl))
    · exact .inr (.inl rfl)

/-- After any action no task waits for signals it has, if none did before. -/
theorem Act.calm {a : Act M S T} {popping : Option Nat} (hq : InOrder idle q popping)
    (hc : ∀ t, q.vars.satisfied t = false) (t : T) : (a.effect q popping).1.vars.satisfied t = false := by
  by_cases ht : a.Caller q.vars t
  · cases a with
    | service c =>
      cases popping with
      | some idx => exact hc t
      | none =>
        obtain ⟨⟨x, hchosen, hr⟩, -⟩ := hq
        obtain rfl := Option.some.inj (hr.symm.trans ht)
        simp only [Act.effect, hr]
        exact c.calm hchosen
    | _ => exact ht.elim
  · exact (a.rises q popping).calm t ht (hc t)

variable [Fintype T] {s : Core (Kernel M S T)}

/-- In every reachable state no task waits for signals it has. -/
theorem board_calm (h : (board idle).ReachIf (Fits idle) s) (t : T) : s.kernel.vars.satisfied t = false := by
  refine h.invariant_of (J := fun s => ∃ q, Rel s.kernel q ∧ InOrder idle q s.popping)
    (I := fun s => ∀ t, s.kernel.vars.satisfied t = false) (fun s => board_inOrder) ?_ ?_ t
  · intro s hs t
    obtain ⟨q, tokens, hk, -, hfresh⟩ := board_start hs
    rw [hk.1.vars]
    refine calm_of_state (fun hst => hfresh.awake t ?_) fun hst => hfresh.awake t ?_ <;> rw [hst]
    · exact .inr (.inr (.inl rfl))
    · exact .inr (.inl rfl)
  · rintro a s s' ⟨q, hk, hq⟩ hc hf hstep t
    obtain ⟨-, hk', -⟩ := step_follows hk hq hf hstep
    rw [hk'.1.vars]
    refine a.calm hq (fun t => ?_) t
    rw [← hk.1.vars]
    exact hc t

/-- **Nobody waits in vain**: a live task that waits for a mutex is in the list of one that another task
holds, one that waits for tokens in that of a semaphore that has none, and one that waits for signals does
not have them. -/
theorem nobody_waits_in_vain (h : (board idle).ReachIf (Fits idle) s) (ht : Live idle s.kernel.vars t) :
    (s.kernel.vars.state t = .WAIT_MUT → ∃ m o, s.kernel.In (.mucb m) t ∧ s.kernel.vars.level m ≠ 0 ∧
        s.kernel.vars.owner m = some o ∧ o ≠ t) ∧
      (s.kernel.vars.state t = .WAIT_SEM → ∃ r, s.kernel.In (.scb r) t ∧ s.kernel.vars.tokens r = 0) ∧
      (s.kernel.vars.state t = .WAIT_AND →
        s.kernel.vars.events t &&& s.kernel.vars.waits t ≠ s.kernel.vars.waits t) ∧
      (s.kernel.vars.state t = .WAIT_OR → s.kernel.vars.events t &&& s.kernel.vars.waits t = 0) := by
  have hcalm := board_calm h t
  obtain ⟨q, hk, hq⟩ := board_inOrder h
  have hsound : ∃ P hand, Sound idle P q hand ∧ ∀ u ∈ hand, q.vars.state u = .RUNNING := by
    cases hp : s.popping with
    | none =>
      rw [hp] at hq
      obtain ⟨⟨x, hx, -⟩, -⟩ := hq
      exact ⟨_, _, hx.sound, fun u hu => List.mem_singleton.mp hu ▸ hx.running⟩
    | some idx =>
      rw [hp] at hq
      exact ⟨_, _, hq.1, fun u hu => absurd hu List.not_mem_nil⟩
  obtain ⟨P, hand, hs, hhand⟩ := hsound
  rw [hk.1.vars] at ht hcalm ⊢
  have hrests : q.vars.state t ≠ .RUNNING → Rests (q.place t) (q.vars.state t) := fun hne =>
    hs.rests t ht fun hm => hne (hhand t hm)
  refine ⟨fun hst => ?_, fun hst => ?_, fun hst hall => ?_, fun hst => ?_⟩
  · have hr := hrests (by rw [hst]; decide)
    rw [hst] at hr
    cases hp : q.place t with
    | none => rw [hp] at hr; rcases hr with h | h | h <;> cases h
    | some h =>
      rw [hp] at hr
      cases h with
      | rdy => cases hr
      | scb r => cases hr
      | mucb m =>
        have hl := hs.held m t hp
        obtain ⟨o, ho, hplace⟩ := hs.owned m hl
        exact ⟨m, o, hk.in_iff.mpr hp, hl, ho, fun he => hplace (he ▸ hp)⟩
  · have hr := hrests (by rw [hst]; decide)
    rw [hst] at hr
    cases hp : q.place t with
    | none => rw [hp] at hr; rcases hr with h | h | h <;> cases h
    | some h =>
      rw [hp] at hr
      cases h with
      | rdy => cases hr
      | mucb m => cases hr
      | scb r => exact ⟨r, hk.in_iff.mpr hp, hs.spent r t hp⟩
  · unfold Vars.satisfied at hcalm
    rw [hst] at hcalm
    exact of_decide_eq_false hcalm hall
  · unfold Vars.satisfied at hcalm
    rw [hst] at hcalm
    exact not_ne_iff.mp (of_decide_eq_false hcalm)

/-- The kernel `pair` after its upper thread has asked for a token that is not there. -/
def pairWaits : Core (Kernel Unit Unit (Fin 3)) :=
  ((board pairIdle).step (.service (.semaphoreWait () 10)) ⟨pair, none⟩).get rfl

theorem pairWaits_step : (board 2).step (.service (.semaphoreWait () 10)) ⟨pair, none⟩ = some pairWaits :=
  (Option.some_get _).symm

theorem pair_wait_fits : Fits (2 : Fin 3) (.service (.semaphoreWait () 10)) ⟨pair, none⟩ :=
  ⟨by decide, fun _ _ => trivial⟩

theorem nobody_waits_in_vain_pair : (pairWaits.kernel.vars.state 1 = .WAIT_MUT → ∃ m o,
      pairWaits.kernel.In (.mucb m) 1 ∧ pairWaits.kernel.vars.level m ≠ 0 ∧
        pairWaits.kernel.vars.owner m = some o ∧ o ≠ 1) ∧
    (pairWaits.kernel.vars.state 1 = .WAIT_SEM → ∃ r, pairWaits.kernel.In (.scb r) 1 ∧
      pairWaits.kernel.vars.tokens r = 0) ∧
    (pairWaits.kernel.vars.state 1 = .WAIT_AND →
      pairWaits.kernel.vars.events 1 &&& pairWaits.kernel.vars.waits 1 ≠ pairWaits.kernel.vars.waits 1) ∧
    (pairWaits.kernel.vars.state 1 = .WAIT_OR →
      pairWaits.kernel.vars.events 1 &&& pairWaits.kernel.vars.waits 1 = 0) :=
  nobody_waits_in_vain (.step (.start pair_start) pair_wait_fits pairWaits_step) (.inr ⟨1, by decide⟩)

example : pairWaits.kernel.vars.state 1 = .WAIT_SEM := by decide

end Expedition.Rtx
