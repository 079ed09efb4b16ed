import Expedition.Rtx.Safety

/-!
# The handler of the requests as a whole

`board` serves the requests of interrupts one by one, as another interrupt may come between two of them.
Left alone, `rt_pop_req` is these steps one after the other, and comes to an end.

* `pop_last`, `pop_next` — one step of the board is one round of the loop, or what comes behind it.
* `rounds_run` — the loop with fuel for every request in the queue.
* `requests_drain` — **the handler serves all there is to serve and ends with the queue empty.**
-/

namespace Expedition.Rtx

open Queues

variable {M S T : Type} [DecidableEq M] [DecidableEq S] [DecidableEq T] [Fintype T] {idle : T}
  {k k' : Kernel M S T} {q : Queues M S T} {idx : Nat} {s : Core (Kernel M S T)}

theorem low_get : (Call.get : Rtk M S T _).run Op.low k = (.ok k.vars, k) := by
  rw [Call.get, Prog.run_perform]
  rfl

theorem low_then {α β : Type} {p : Rtk M S T α} {l : α → Rtk M S T β} {a : α}
    (h : p.run Op.low k = (.ok a, k')) : (p >>= l).run Op.low k = (l a).run Op.low k' := by
  rw [Prog.run_bind, Exec.run_bind_ok h]

/-- A program that is known to return has a first part that returns. -/
theorem low_parts {α β : Type} {p : Rtk M S T α} {l : α → Rtk M S T β} {b : β}
    (h : (p >>= l).run Op.low k = (.ok b, k')) :
    ∃ a k₁, p.run Op.low k = (.ok a, k₁) ∧ (l a).run Op.low k₁ = (.ok b, k') := by
  rw [Prog.run_bind, Exec.run_bind] at h
  cases hp : p.run Op.low k with
  | mk r k₁ =>
    rw [hp] at h
    cases r with
    | ok a => exact ⟨a, k₁, rfl, h⟩
    | error e => cases h

theorem step_run {a : Act M S T} {p : Rtk M S T (Option Nat)} {popping : Option Nat}
    (hp : a.prog popping = some p) (h : (board idle).step a ⟨k, popping⟩ = some s) :
    p.run Op.low k = (.ok s.popping, s.kernel) := by
  simp only [board, rtx, hp] at h
  cases hrun : p.run Op.low k with
  | mk r k₁ =>
    rw [hrun] at h
    cases r with
    | ok i =>
      obtain rfl := Option.some.inj h
      rfl
    | error e => cases h

/-- With no request left the board does what comes behind the loop. -/
theorem pop_last (hc : k.vars.psq_count = 0) (h : (board idle).step .pop ⟨k, some idx⟩ = some s) :
    s.popping = none ∧ ∃ k₁, (rt_pop_req.leave idx).run Op.low k = (.ok (), k₁) ∧
      Sys_Switch.run Op.low k₁ = (.ok (), s.kernel) := by
  have hrun := step_run (a := .pop) rfl h
  rw [low_then low_get] at hrun
  simp only [if_pos hc] at hrun
  obtain ⟨_, k₁, hleave, hrest⟩ := low_parts hrun
  obtain ⟨_, k₂, hswitch, hdone⟩ := low_parts hrest
  obtain ⟨hnone, rfl⟩ := Prod.mk.inj hdone
  exact ⟨(Except.ok.inj hnone).symm, k₁, hleave, hswitch⟩

/-- With a request left the board does a round of the loop. -/
theorem pop_next (hc : k.vars.psq_count ≠ 0) (h : (board idle).step .pop ⟨k, some idx⟩ = some s) :
    s.popping = some (psq_next idx) ∧ (rt_pop_req.serve idx).run Op.low k = (.ok (), s.kernel) := by
  have hrun := step_run (a := .pop) rfl h
  rw [low_then low_get] at hrun
  simp only [if_neg hc] at hrun
  obtain ⟨_, k₁, hserve, hdone⟩ := low_parts hrun
  obtain ⟨hnext, rfl⟩ := Prod.mk.inj hdone
  exact ⟨(Except.ok.inj hnext).symm, hserve⟩

/-- The loop, with fuel for the requests there are: it comes to an index with the queue empty, and the board
gets to the same state by as many steps and one more. -/
theorem rounds_run (n : Nat) (hk : Rel k q) (hq : InOrder idle q (some idx)) (hn : k.vars.psq_count < n) :
    ∃ j k₁ k₂ k₃, (rt_pop_req.loop n idx).run Op.low k = (.ok j, k₁) ∧
      (rt_pop_req.leave j).run Op.low k₁ = (.ok (), k₂) ∧ Sys_Switch.run Op.low k₂ = (.ok (), k₃) ∧
      (board idle).run (List.replicate (k.vars.psq_count + 1) .pop) ⟨k, some idx⟩ = some ⟨k₃, none⟩ ∧
      k₃.vars.psq_count = 0 := by
  induction n generalizing k q idx with
  | zero => exact absurd hn (Nat.not_lt_zero _)
  | succ n ih =>
    have hvars := hk.1.vars
    obtain ⟨s, hstep, hpop, hk', hq'⟩ := step_effect (s := ⟨k, some idx⟩) (a := .pop) hk hq trivial rfl
    rw [rt_pop_req.loop, low_then low_get]
    by_cases hc : k.vars.psq_count = 0
    · obtain ⟨hnone, k₂, hleave, hswitch⟩ := pop_last hc hstep
      refine ⟨idx, k, k₂, s.kernel, ?_, hleave, hswitch, ?_, ?_⟩
      · simp only [if_pos hc]
        rfl
      · rw [hc]
        show ((board idle).step .pop ⟨k, some idx⟩).bind _ = _
        rw [hstep, ← hnone]
        rfl
      · have hdesk : ((q.resume idx).switched).vars.psq_count = q.vars.psq_count :=
          congrArg (fun w => w.desk.count) (Moved.next (q.edit fun v => { v with psq_last := idx })).words
        rw [hvars] at hc
        simp only [Act.effect, if_pos hc] at hk'
        rw [hk'.1.vars, hdesk, hc]
    · obtain ⟨hnext, hserve⟩ := pop_next hc hstep
      have hc' : q.vars.psq_count ≠ 0 := by rwa [← hvars]
      obtain ⟨e, he⟩ := Desk.head hq.2 hc'
      have he : q.vars.psq_id idx = some e := he
      have hless : s.kernel.vars.psq_count = k.vars.psq_count - 1 := by
        simp only [Act.effect, if_neg hc', he] at hk'
        rw [hk'.1.vars, hvars]
        exact congrArg Desk.count (serve_desk q e (q.vars.psq_arg idx))
      rw [hnext] at hq'
      obtain ⟨j, k₁, k₂, k₃, hloop, hleave, hswitch, hrun, hz⟩ := ih hk' hq' (by omega)
      refine ⟨j, k₁, k₂, k₃, ?_, hleave, hswitch, ?_, hz⟩
      · simp only [if_neg hc]
        rw [low_then hserve]
        exact hloop
      · obtain ⟨m, hm⟩ := Nat.exists_eq_succ_of_ne_zero hc
        rw [hm]
        show ((board idle).step .pop ⟨k, some idx⟩).bind _ = _
        rw [hless, hm] at hrun
        rw [hstep]
        have hs : s = ⟨s.kernel, some (psq_next idx)⟩ := by rw [← hnext]
        rw [hs]
        exact hrun

/-- **The handler of the requests serves them all**: whenever it is entered, and left alone, its loop comes to
an end, and it does what the board does step by step, with the queue empty at the end. -/
theorem requests_drain (h : (board idle).ReachIf (Fits idle) s) (hpop : s.popping = none) :
    ∃ k, (rt_pop_req >>= fun _ => Sys_Switch : Rtk M S T Unit).run Op.low s.kernel = (.ok (), k) ∧
      (board idle).run (.pendSV :: List.replicate (s.kernel.vars.psq_count + 1) .pop) s = some ⟨k, none⟩ ∧
      k.vars.psq_count = 0 := by
  obtain ⟨q, hk, hq⟩ := board_inOrder h
  obtain ⟨k, popping⟩ := s
  obtain rfl : popping = none := hpop
  obtain ⟨s₁, hstep, hnext, hk₁, hq₁⟩ := step_effect (s := ⟨k, none⟩) (a := .pendSV) hk hq trivial rfl
  obtain ⟨idx, k₁, henter, hdone⟩ := low_parts (step_run (a := .pendSV) rfl hstep)
  obtain ⟨hidx, rfl⟩ := Prod.mk.inj hdone
  have hidx : some idx = s₁.popping := Except.ok.inj hidx
  have hs₁ : s₁ = ⟨s₁.kernel, some idx⟩ := by rw [hidx]
  rw [← hidx] at hq₁
  have hcount : s₁.kernel.vars.psq_count = k.vars.psq_count := by
    obtain ⟨⟨x, -, hr⟩, -⟩ := hq
    simp only [Act.effect, hr] at hk₁
    rw [hk₁.1.vars, hk.1.vars]
    rfl
  have hroom : s₁.kernel.vars.psq_count ≤ os_fifo_size := by
    rw [hk₁.1.vars]
    exact hq₁.2.count
  obtain ⟨j, k₂, k₃, k₄, hloop, hleave, hswitch, hrun, hz⟩ :=
    rounds_run (os_fifo_size + 1) hk₁ hq₁ (Nat.lt_succ_of_le hroom)
  have hwhole : (rt_pop_req : Rtk M S T Unit).run Op.low k = (.ok (), k₃) := by
    rw [rt_pop_req, low_then henter, low_then hloop]
    exact hleave
  refine ⟨k₄, ?_, ?_, hz⟩
  · rw [low_then hwhole]
    exact hswitch
  · show ((board idle).step .pendSV ⟨k, none⟩).bind _ = _
    rw [hstep, hs₁, ← hcount]
    exact hrun

/-- The kernel `pair` after an interrupt has released the semaphore. -/
def pairAsked : Core (Kernel Unit Unit (Fin 3)) := ((board pairIdle).step (.post ()) ⟨pair, none⟩).get rfl

theorem pairAsked_step : (board 2).step (.post ()) ⟨pair, none⟩ = some pairAsked := (Option.some_get _).symm

theorem requests_drain_pair : ∃ k, (rt_pop_req >>= fun _ => Sys_Switch : Rtk Unit Unit (Fin 3) Unit).run
    Op.low pairAsked.kernel = (.ok (), k) ∧
      (board 2).run (.pendSV :: List.replicate (pairAsked.kernel.vars.psq_count + 1) .pop) pairAsked =
        some ⟨k, none⟩ ∧ k.vars.psq_count = 0 :=
  requests_drain (.step (.start pair_start) pair_post_fits pairAsked_step) rfl

example : pairAsked.kernel.vars.psq_count = 1 := by decide

end Expedition.Rtx
