import Expedition.Rtx.Sleep

/-!
# Only the running task goes to sleep

No kernel function puts any other task to sleep: the tasks but the caller keep their states or become
ready, none of them gets into a waiting list, and none is left asleep on signals it has.

* `Rises` — this, for all tasks but those in `E`; the moves.
* `mutWait_rises`, `semSend_rises`, … — the kernel functions.
-/

namespace Expedition.Rtx

open Queues

variable {M S T : Type}

/-- All tasks but those in `E` keep their states or become ready, stay out of waiting lists they are not
in, and do not come to wait for signals they have. -/
structure Rises (E : T → Prop) (q q' : Queues M S T) : Prop where
  state : ∀ t, ¬ E t → q'.vars.state t = q.vars.state t ∨ q'.vars.up t
  place : ∀ t, ¬ E t → ∀ h, h ≠ .rdy → q'.place t = some h → q.place t = some h
  calm : ∀ t, ¬ E t → q.vars.satisfied t = false → q'.vars.satisfied t = false

variable {q q' q'' : Queues M S T} {E : T → Prop} {x t run : T} {v w : Vars M S T}

theorem Vars.up.calm (h : v.up t) : v.satisfied t = false := by
  unfold Vars.satisfied
  rcases h with h | h <;> rw [h]

theorem satisfied_congr (he : w.events t = v.events t) (hs : w.state t = v.state t)
    (hw : w.waits t = v.waits t) : w.satisfied t = v.satisfied t := by
  unfold Vars.satisfied
  rw [hs, he, hw]

namespace Rises

theorem refl (E : T → Prop) (q : Queues M S T) : Rises E q q :=
  ⟨fun _ _ => .inl rfl, fun _ _ _ _ h => h, fun _ _ h => h⟩

theorem trans (h : Rises E q q') (h' : Rises E q' q'') : Rises E q q'' := by
  refine ⟨fun t ht => ?_, fun t ht k hk hp => h.place t ht k hk (h'.place t ht k hk hp),
    fun t ht hc => h'.calm t ht (h.calm t ht hc)⟩
  rcases h'.state t ht with hs | hs
  · rcases h.state t ht with hs' | hs'
    · exact .inl (hs.trans hs')
    · refine .inr ?_
      unfold Vars.up
      rw [hs]
      exact hs'
  · exact .inr hs

/-- With the events the same, only the states are to be looked at. -/
theorem of_state (he : q'.vars.events = q.vars.events) (hw : q'.vars.waits = q.vars.waits)
    (hs : ∀ t, ¬ E t → q'.vars.state t = q.vars.state t ∨ q'.vars.up t)
    (hp : ∀ t, ¬ E t → ∀ h, h ≠ .rdy → q'.place t = some h → q.place t = some h) : Rises E q q' := by
  refine ⟨hs, hp, fun t ht hc => ?_⟩
  rcases hs t ht with hs | hs
  · rw [satisfied_congr (congrFun he t) hs (congrFun hw t)]
    exact hc
  · exact hs.calm

/-- The task `x` comes to be ready or to run, and the others are left alone. -/
theorem raise (hs : ∀ t, t ≠ x → q'.vars.state t = q.vars.state t ∧ q'.vars.events t = q.vars.events t ∧
    q'.vars.waits t = q.vars.waits t) (hx : q'.vars.up x)
    (hp : ∀ t h, h ≠ .rdy → q'.place t = some h → q.place t = some h) : Rises E q q' := by
  refine ⟨fun t _ => ?_, fun t _ => hp t, fun t _ hc => ?_⟩
  · by_cases ht : t = x
    · exact .inr (ht ▸ hx)
    · exact .inl (hs t ht).1
  · by_cases ht : t = x
    · exact ht ▸ hx.calm
    · rw [satisfied_congr (hs t ht).2.1 (hs t ht).1 (hs t ht).2.2]
      exact hc

theorem edit {f : Vars M S T → Vars M S T} (hs : (f q.vars).state = q.vars.state)
    (he : (f q.vars).events = q.vars.events) (hw : (f q.vars).waits = q.vars.waits) :
    Rises E q (q.edit f) :=
  of_state he hw (fun t _ => .inl (congrFun hs t)) fun _ _ _ _ hp => hp

variable [DecidableEq M] [DecidableEq S] [DecidableEq T] {h : Head M S}

theorem take (q : Queues M S T) (x : T) : Rises E q (q.take x) := by
  refine of_state (by rw [take_vars]) (by rw [take_vars]) (fun t _ => .inl (by rw [take_vars])) ?_
  exact fun t _ k _ hp => (take_place_eq_some hp).2

theorem put (hx : h = .rdy ∨ E x) : Rises E q (q.put h x) := by
  refine of_state rfl rfl (fun t _ => .inl rfl) fun t ht k hk hp => ?_
  by_cases he : t = x
  · subst he
    rw [put_place_self] at hp
    cases hp
    exact absurd (hx.resolve_right ht) hk
  · rwa [put_place_of_ne _ _ he] at hp

theorem toReady (q : Queues M S T) (x : T) : Rises E q (q.toReady x) := by
  refine (put (.inl rfl)).trans (raise (x := x) (fun t ht => ⟨?_, rfl, rfl⟩) (up_ready _ _) fun _ _ _ hp => hp)
  exact Function.update_of_ne ht ..

theorem toFront (q : Queues M S T) (x : T) : Rises E q (q.toFront x) := by
  refine raise (x := x) (fun t ht => ⟨Function.update_of_ne ht .., rfl, rfl⟩) (up_ready _ _)
    fun t k hk hp => ?_
  change Function.update q.place x (some .rdy) t = some k at hp
  by_cases ht : t = x
  · rw [ht, Function.update_self] at hp
    cases hp
    exact absurd rfl hk
  · rwa [Function.update_of_ne ht] at hp

omit [DecidableEq M] [DecidableEq S] in
theorem switch (q : Queues M S T) (x : T) : Rises E q (q.switch x) :=
  raise (x := x) (fun _ ht => ⟨Function.update_of_ne ht .., rfl, rfl⟩) (up_switch _ _) fun _ _ _ hp => hp

theorem next (q : Queues M S T) : Rises E q q.next := by
  unfold Queues.next
  split
  · exact refl E q
  · exact (take q _).trans (switch _ _)

theorem dispatch (q : Queues M S T) (run x : T) : Rises E q (q.dispatch run x) := by
  unfold Queues.dispatch
  split
  · exact (toFront q run).trans (switch _ x)
  · exact toReady q x

theorem block {n : Nat} {s : TaskState} (hr : E run) : Rises E q (q.block run n s) := by
  have hdelay : Rises E q (q.delayFor run n) := by
    unfold Queues.delayFor
    split
    · exact of_state rfl rfl (fun _ _ => .inl rfl) fun _ _ _ _ hp => hp
    · exact refl E q
  have hsleep : Rises E (q.delayFor run n) ((q.delayFor run n).edit fun v => v.setState run s) := by
    refine of_state rfl rfl (fun t ht => .inl ?_) fun _ _ _ _ hp => hp
    exact Function.update_of_ne (fun he => ht (by rwa [he])) ..
  exact (hdelay.trans hsleep).trans (next _)

theorem pass (q : Queues M S T) (run : T) : Rises E q (q.pass run) := by
  unfold Queues.pass
  split
  · exact refl E q
  · split
    · exact ((take q _).trans (toReady _ run)).trans (switch _ _)
    · exact refl E q

theorem yieldTo (q : Queues M S T) (run : T) (p : Nat) : Rises E q (q.yieldTo run p) := by
  unfold Queues.yieldTo
  split
  · exact refl E q
  · split
    · exact (toReady q run).trans (next _)
    · exact refl E q

theorem goOn (q : Queues M S T) (run x : T) : Rises E q (q.goOn run x) := by
  unfold Queues.goOn
  split
  · exact refl E q
  · split
    · exact dispatch q run x
    · exact ((toReady q run).trans (toReady _ x)).trans (next _)

theorem resort (q : Queues M S T) (x : T) : Rises E q (q.resort x) := by
  refine of_state (by rw [resort_vars]) (by rw [resort_vars]) (fun t _ => .inl (by rw [resort_vars])) ?_
  intro t _ k _ hp
  unfold Queues.resort at hp
  cases hx : q.place x with
  | none => rwa [hx] at hp
  | some h =>
    rw [hx] at hp
    by_cases ht : t = x
    · subst ht
      rw [hx, ← hp]
      exact (put_place_self _ h t).symm
    · rw [← hp]
      exact ((put_place_of_ne _ h ht).trans (take_place_of_ne ht)).symm

theorem inherit (q : Queues M S T) (m : M) (run : T) : Rises E q (q.inherit m run) := by
  unfold Queues.inherit
  split
  · rename_i o _
    split
    · exact (edit (f := fun v => v.setPrio o (q.vars.prio run)) rfl rfl rfl).trans (resort _ o)
    · exact refl E q
  · exact refl E q

omit [DecidableEq M] [DecidableEq S] in
theorem undelay (q : Queues M S T) (x : T) : Rises E q (q.undelay x) :=
  of_state rfl rfl (fun _ _ => .inl rfl) fun _ _ _ _ hp => hp

theorem handOver (q : Queues M S T) (m : M) (x : T) : Rises E q (q.handOver m x) := by
  have hret : Rises E (q.take x) ((q.take x).edit fun v => v.setRet x osOK) := edit rfl rfl rfl
  exact (((take q x).trans hret).trans (undelay _ x)).trans (edit rfl rfl rfl)

theorem releases (l : List T) (q : Queues M S T) : Rises E q (l.foldl Queues.release q) := by
  induction l generalizing q with
  | nil => exact refl E q
  | cons t l ih => exact ((take q t).trans (toReady _ t)).trans (ih _)

theorem tick (q : Queues M S T) : Rises E q q.tick := by
  have hdue : Rises E q
      { q with now := q.now + 1, delay := q.delay.dropWhile fun p => p.2 ≤ q.now + 1 } :=
    of_state rfl rfl (fun _ _ => .inl rfl) fun _ _ _ _ hp => hp
  exact hdue.trans (releases _ _)

theorem robin (q : Queues M S T) : Rises E q q.robin := by
  have hswap : ∀ q₁ : Queues M S T, Rises E q₁ q₁.swapRobin := by
    intro q₁
    unfold Queues.swapRobin
    split
    · split
      · exact refl E q₁
      · exact ((edit (f := fun v => { v with robin_task := none }) rfl rfl rfl).trans (take _ _)).trans
          (put (.inl rfl))
    · exact refl E q₁
  unfold Queues.robin
  split
  · exact (edit (f := fun v => { v with
      robin_task := (q.queue .rdy).head?, robin_time := u16 (u16 v.os_time + v.robin_tout + 65535) })
      rfl rfl rfl).trans (hswap _)
  · exact hswap q

end Rises

/-! ## The functions -/

variable [DecidableEq M] [DecidableEq S] [DecidableEq T]

theorem mutWait_rises {m : M} {n : Nat} (hr : E run) : Rises E q (q.mutWait run m n) := by
  unfold Queues.mutWait
  split
  · exact Rises.edit (f := fun v => v.setMut m _ _ _) rfl rfl rfl
  · split
    · exact Rises.edit (f := fun v => v.setLevel m _) rfl rfl rfl
    · split
      · exact Rises.refl E q
      · exact ((Rises.inherit q m run).trans (Rises.put (.inr hr))).trans (Rises.block hr)

theorem mutRelease_rises {m : M} : Rises E q (q.mutRelease run m) := by
  unfold Queues.mutRelease
  split
  · exact Rises.refl E q
  · simp only
    have hlevel : Rises E q (q.edit fun v => v.setLevel m (v.level m - 1)) :=
      Rises.edit (f := fun v => v.setLevel m _) rfl rfl rfl
    split
    · exact hlevel
    · have hprio := hlevel.trans (Rises.edit (f := fun v => v.setPrio run (v.mut_prio m)) rfl rfl rfl)
      split
      · exact hprio.trans (Rises.yieldTo _ run _)
      · rename_i t l _
        exact (hprio.trans (Rises.handOver _ m t)).trans (Rises.goOn _ run t)

omit [DecidableEq M] [DecidableEq S] in
/-- A task wakes with the events it waits for, whatever has been added to them. -/
theorem wake_rises (q : Queues M S T) (x : T) (f : BitVec 16) :
    Rises E q ((q.edit fun v => v.setEvents x (v.events x ||| f)).wake x) := by
  refine Rises.raise (x := x) (fun t ht => ⟨Function.update_of_ne ht .., ?_, ?_⟩)
    (.inl (Function.update_self ..)) fun _ _ _ hp => hp
  · exact (Function.update_of_ne ht ..).trans (Function.update_of_ne ht ..)
  · show (if _ then _ else _ : T → BitVec 16) t = _
    split
    · exact Function.update_of_ne ht ..
    · rfl

omit [DecidableEq M] [DecidableEq S] in
/-- Events that are not enough leave the task waiting. -/
theorem set_rises (q : Queues M S T) (x : T) (f : BitVec 16)
    (hx : (q.edit fun v => v.setEvents x (v.events x ||| f)).vars.satisfied x ≠ true) :
    Rises E q (q.edit fun v => v.setEvents x (v.events x ||| f)) := by
  refine ⟨fun _ _ => .inl rfl, fun _ _ _ _ hp => hp, fun t _ hc => ?_⟩
  by_cases ht : t = x
  · subst ht
    exact Bool.eq_false_iff.mpr hx
  · have hsame : (q.edit fun v => v.setEvents x (v.events x ||| f)).vars.events t = q.vars.events t :=
      Function.update_of_ne ht ..
    exact (satisfied_congr hsame rfl rfl).trans hc

theorem evtSet_rises {f : BitVec 16} : Rises E q (q.evtSet run t f) := by
  unfold Queues.evtSet
  simp only
  split
  · exact (wake_rises q t f).trans (Rises.dispatch _ run t)
  · exact set_rises q t f ‹_›

theorem evtPsh_rises {f : BitVec 16} : Rises E q (q.evtPsh t f) := by
  unfold Queues.evtPsh
  simp only
  split
  · exact (wake_rises q t f).trans (Rises.put (.inl rfl))
  · exact set_rises q t f ‹_›

omit [DecidableEq M] [DecidableEq S] in
/-- A task that has too few events still has too few when some are cleared. -/
theorem clear_rises (q : Queues M S T) (x : T) (f : BitVec 16) :
    Rises E q (q.edit fun v => v.setEvents x (v.events x &&& ~~~f)) := by
  refine ⟨fun _ _ => .inl rfl, fun _ _ _ _ hp => hp, fun t _ hc => ?_⟩
  by_cases ht : t = x
  · subst ht
    have hev : (q.vars.setEvents t (q.vars.events t &&& ~~~f)).events t = q.vars.events t &&& ~~~f :=
      Function.update_self ..
    have hand : q.vars.events t &&& ~~~f &&& q.vars.waits t =
        q.vars.events t &&& q.vars.waits t &&& ~~~f := by
      rw [BitVec.and_assoc, BitVec.and_comm (~~~f), ← BitVec.and_assoc]
    refine Bool.eq_false_iff.mpr fun hsat => Bool.eq_false_iff.mp hc ?_
    change (q.vars.setEvents t (q.vars.events t &&& ~~~f)).satisfied t = true at hsat
    rcases Vars.state_of_satisfied hsat with hs | hs
    · change q.vars.state t = .WAIT_AND at hs
      have hall : (q.vars.setEvents t (q.vars.events t &&& ~~~f)).events t &&& q.vars.waits t =
          q.vars.waits t := by
        unfold Vars.satisfied at hsat
        rw [show (q.vars.setEvents t (q.vars.events t &&& ~~~f)).state t = .WAIT_AND from hs] at hsat
        exact of_decide_eq_true hsat
      rw [hev, hand] at hall
      unfold Vars.satisfied
      rw [hs]
      refine decide_eq_true ?_
      calc q.vars.events t &&& q.vars.waits t
          = q.vars.events t &&& (q.vars.events t &&& q.vars.waits t &&& ~~~f) := by rw [hall]
        _ = q.vars.events t &&& q.vars.waits t &&& ~~~f := by
          rw [← BitVec.and_assoc, ← BitVec.and_assoc, BitVec.and_self]
        _ = q.vars.waits t := hall
    · change q.vars.state t = .WAIT_OR at hs
      have hsome : (q.vars.setEvents t (q.vars.events t &&& ~~~f)).events t &&& q.vars.waits t ≠ 0 := by
        unfold Vars.satisfied at hsat
        rw [show (q.vars.setEvents t (q.vars.events t &&& ~~~f)).state t = .WAIT_OR from hs] at hsat
        exact of_decide_eq_true hsat
      rw [hev, hand] at hsome
      unfold Vars.satisfied
      rw [hs]
      refine decide_eq_true fun hnone => hsome ?_
      rw [hnone]
      exact BitVec.zero_and
  · have hsame : (q.edit fun v => v.setEvents x (v.events x &&& ~~~f)).vars.events t = q.vars.events t :=
      Function.update_of_ne ht ..
    exact (satisfied_congr hsame rfl rfl).trans hc

theorem evtWait_rises {f : BitVec 16} {n : Nat} {b : Bool} (hr : E run) : Rises E q (q.evtWait run f n b) := by
  have hown : ∀ g : Vars M S T → Vars M S T, (g q.vars).state = q.vars.state →
      (∀ t, t ≠ run → (g q.vars).events t = q.vars.events t ∧ (g q.vars).waits t = q.vars.waits t) →
      Rises E q (q.edit g) := by
    intro g hs hg
    refine ⟨fun t _ => .inl (congrFun hs t), fun _ _ _ _ hp => hp, fun t ht hc => ?_⟩
    have htr : t ≠ run := fun he => ht (by rwa [he])
    exact (satisfied_congr (hg t htr).1 (congrFun hs t) (hg t htr).2).trans hc
  have hwaits := hown (fun v => v.setWaits run f) rfl fun t ht => ⟨rfl, Function.update_of_ne ht ..⟩
  unfold Queues.evtWait
  split <;> split
  · exact hown (fun v => v.setEvents run _) rfl fun t ht => ⟨Function.update_of_ne ht .., rfl⟩
  · simp only
    split
    · exact hwaits
    · exact hwaits.trans (Rises.block hr)
  · exact hown (fun v => (v.setWaits run _).setEvents run _) rfl fun t ht =>
      ⟨Function.update_of_ne ht .., Function.update_of_ne ht ..⟩
  · simp only
    split
    · exact hwaits
    · exact hwaits.trans (Rises.block hr)

theorem semSend_rises {s : S} : Rises E q (q.semSend run s) := by
  unfold Queues.semSend
  split
  · exact Rises.edit (f := fun v => v.setTokens s _) rfl rfl rfl
  · rename_i t l _
    have hret : Rises E (q.take t) ((q.take t).edit fun v => v.setRet t 1) := Rises.edit rfl rfl rfl
    exact (((Rises.take q t).trans hret).trans (Rises.undelay _ t)).trans (Rises.dispatch _ run t)

theorem semPsh_rises {s : S} : Rises E q (q.semPsh s) := by
  unfold Queues.semPsh
  split
  · exact Rises.edit (f := fun v => v.setTokens s _) rfl rfl rfl
  · rename_i t l _
    have hready : Rises E ((q.take t).undelay t) (((q.take t).undelay t).edit fun v =>
        (v.setState t .READY).setRet t 1) :=
      Rises.raise (x := t) (fun u hu => ⟨Function.update_of_ne hu .., rfl, rfl⟩)
        (.inl (Function.update_self ..)) fun _ _ _ hp => hp
    exact (((Rises.take q t).trans (Rises.undelay _ t)).trans hready).trans (Rises.put (.inl rfl))

theorem semWait_rises {s : S} {n : Nat} (hr : E run) : Rises E q (q.semWait run s n) := by
  unfold Queues.semWait
  split
  · exact Rises.edit (f := fun v => v.setTokens s _) rfl rfl rfl
  · split
    · exact Rises.refl E q
    · exact (Rises.put (.inr hr)).trans (Rises.block hr)

theorem reprio_rises {p : Nat} : Rises E q (q.reprio run t p) := by
  have hsort : Rises E q ((q.edit fun v => v.setPrio t p).resort t) :=
    (Rises.edit (f := fun v => v.setPrio t p) rfl rfl rfl).trans (Rises.resort _ t)
  unfold Queues.reprio
  simp only
  split
  · split
    · exact hsort
    · exact (hsort.trans (Rises.take _ _)).trans (Rises.dispatch _ run _)
  · exact hsort

theorem finish_rises (hr : E run) : Rises E q (q.finish run) := by
  have hleave : Rises E q (q.edit fun v =>
      { (v.setState run .INACTIVE).setActive (v.task_id run - 1) none with run := none }) :=
    Rises.of_state rfl rfl (fun t ht => .inl (Function.update_of_ne (fun he => ht (by rwa [he])) ..))
      fun _ _ _ _ hp => hp
  exact hleave.trans (Rises.next _)

theorem kill_rises {i : Nat} : Rises E q (q.kill t i) := by
  have hstale : Rises E (q.take t) { q.take t with stale := Function.update q.stale t true } :=
    Rises.of_state rfl rfl (fun _ _ => .inl rfl) fun _ _ _ _ hp => hp
  exact (((Rises.take q t).trans hstale).trans (Rises.undelay _ t)).trans
    (Rises.edit (f := fun v => v.setActive i none) rfl rfl rfl)

omit [DecidableEq M] [DecidableEq S] in
theorem enrol_rises {p i : Nat} : Rises E q (q.enrol t p i) :=
  Rises.raise (x := t) (fun _ hu => ⟨Function.update_of_ne hu .., Function.update_of_ne hu ..,
    Function.update_of_ne hu ..⟩) (.inl (Function.update_self ..)) fun _ _ _ hp => hp

end Expedition.Rtx
