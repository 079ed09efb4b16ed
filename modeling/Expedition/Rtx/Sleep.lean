import Expedition.Rtx.Frames

/-!
# What befalls a task that waits

A kernel function leaves a task that waits as it is, or wakes it with the result that says so.

* `Sleeps` — nothing has happened to a task; the moves of others.
* `Woken` — a task has been given what it has waited for.
* `mutWait_sleeps`, `mutRelease_sleeps`, … — each function, for a task other than the running one.
-/

namespace Expedition.Rtx

open Queues

variable {M S T : Type}

/-- The task waits for something, or for its time. -/
def TaskState.Waits (s : TaskState) : Prop :=
  s = .WAIT_DLY ∨ s = .WAIT_OR ∨ s = .WAIT_AND ∨ s = .WAIT_SEM ∨ s = .WAIT_MUT

/-- The task is ready or runs. -/
def Vars.up (v : Vars M S T) (x : T) : Prop := v.state x = .READY ∨ v.state x = .RUNNING

theorem Vars.up.not_waits {v : Vars M S T} {x : T} (h : v.up x) : ¬ (v.state x).Waits := by
  intro hw
  rcases h with h | h <;> rw [h] at hw <;> rcases hw with h | h | h | h | h <;> cases h

theorem TaskState.Waits.ne_running {s : TaskState} (h : s.Waits) : s ≠ .RUNNING := by
  rintro rfl
  rcases h with h | h | h | h | h <;> cases h

/-- What a task finds as the result of its call when it has what it has waited for. -/
def TaskState.success : TaskState → Option Nat
  | .WAIT_MUT => some osOK
  | .WAIT_SEM => some 1
  | .WAIT_OR => some osEventSignal
  | .WAIT_AND => some osEventSignal
  | _ => none

/-- Nothing has happened to the task `x`. -/
structure Sleeps (x : T) (q q' : Queues M S T) : Prop where
  state : q'.vars.state x = q.vars.state x
  ret : q'.vars.ret x = q.vars.ret x
  date : ∀ d, (x, d) ∈ q'.delay ↔ (x, d) ∈ q.delay
  now : q'.now = q.now
  rdy : x ∉ q.queue .rdy → x ∉ q'.queue .rdy

variable {q q' q'' : Queues M S T} {x t run : T}

namespace Sleeps

theorem refl (x : T) (q : Queues M S T) : Sleeps x q q := ⟨rfl, rfl, fun _ => Iff.rfl, rfl, id⟩

theorem trans (h : Sleeps x q q') (h' : Sleeps x q' q'') : Sleeps x q q'' :=
  ⟨h'.state.trans h.state, h'.ret.trans h.ret, fun d => (h'.date d).trans (h.date d), h'.now.trans h.now,
    fun hx => h'.rdy (h.rdy hx)⟩

theorem edit {f : Vars M S T → Vars M S T} (hs : (f q.vars).state x = q.vars.state x)
    (hr : (f q.vars).ret x = q.vars.ret x) : Sleeps x q (q.edit f) :=
  ⟨hs, hr, fun _ => Iff.rfl, rfl, id⟩

variable [DecidableEq M] [DecidableEq S] [DecidableEq T] {h : Head M S}

theorem take (q : Queues M S T) (x t : T) : Sleeps x q (q.take t) := by
  refine ⟨by rw [take_vars], by rw [take_vars], fun d => by rw [take_delay], take_now, fun hx => ?_⟩
  unfold Queues.take
  cases q.place t with
  | none => exact hx
  | some h =>
    show x ∉ Function.update q.queue h _ .rdy
    by_cases hh : Head.rdy = h
    · subst hh
      rw [Function.update_self]
      exact fun hm => hx (List.mem_of_mem_erase hm)
    · rw [Function.update_of_ne hh]
      exact hx

theorem put (ht : h = .rdy → x ≠ t) : Sleeps x q (q.put h t) := by
  refine ⟨rfl, rfl, fun _ => Iff.rfl, rfl, fun hx => ?_⟩
  show x ∉ Function.update q.queue h _ .rdy
  by_cases hh : Head.rdy = h
  · subst hh
    rw [Function.update_self, mem_putPrio, not_or]
    exact ⟨ht rfl, hx⟩
  · rw [Function.update_of_ne hh]
    exact hx

theorem toReady (q : Queues M S T) (ht : x ≠ t) : Sleeps x q (q.toReady t) :=
  (put (h := .rdy) fun _ => ht).trans
    (edit (q := q.put .rdy t) (f := fun v => v.setState t .READY) (Function.update_of_ne ht ..) rfl)

theorem toFront (q : Queues M S T) (ht : x ≠ t) : Sleeps x q (q.toFront t) := by
  refine ⟨Function.update_of_ne ht .., rfl, fun _ => Iff.rfl, rfl, fun hx => ?_⟩
  rw [toFront_queue, List.mem_cons, not_or]
  exact ⟨ht, hx⟩

omit [DecidableEq M] [DecidableEq S] in
theorem switch (q : Queues M S T) (ht : x ≠ t) : Sleeps x q (q.switch t) :=
  edit (Function.update_of_ne ht ..) rfl

omit [DecidableEq M] [DecidableEq S] in
theorem undelay (q : Queues M S T) (ht : x ≠ t) : Sleeps x q (q.undelay t) := by
  refine ⟨rfl, rfl, fun d => ?_, rfl, id⟩
  show (x, d) ∈ q.delay.filter _ ↔ _
  rw [List.mem_filter]
  simp [ht]

omit [DecidableEq M] [DecidableEq S] [DecidableEq T] in
theorem delayFor (q : Queues M S T) (ht : x ≠ t) (n : Nat) : Sleeps x q (q.delayFor t n) := by
  unfold Queues.delayFor
  split
  · refine ⟨rfl, rfl, fun d => ?_, rfl, id⟩
    show (x, d) ∈ putDate t _ q.delay ↔ _
    rw [mem_putDate]
    simp [ht]
  · exact refl x q

theorem next (hx : x ∉ q.queue .rdy) : Sleeps x q q.next := by
  unfold Queues.next
  cases hl : q.queue .rdy with
  | nil => exact refl x q
  | cons y l =>
    have hne : x ≠ y := fun he => hx (hl ▸ he ▸ List.mem_cons_self)
    exact (take q x y).trans (switch _ hne)

theorem dispatch (q : Queues M S T) (hr : x ≠ run) (ht : x ≠ t) : Sleeps x q (q.dispatch run t) := by
  unfold Queues.dispatch
  split
  · exact (toFront q hr).trans (switch _ ht)
  · exact toReady q ht

theorem block (hx : x ∉ q.queue .rdy) (hr : x ≠ run) (n : Nat) (s : TaskState) :
    Sleeps x q (q.block run n s) := by
  have hsleep := (delayFor q hr n).trans
    (edit (f := fun v => v.setState run s) (Function.update_of_ne hr ..) rfl)
  exact hsleep.trans (next (hsleep.rdy hx))

theorem pass (hx : x ∉ q.queue .rdy) (hr : x ≠ run) : Sleeps x q (q.pass run) := by
  unfold Queues.pass
  cases hl : q.queue .rdy with
  | nil => exact refl x q
  | cons y l =>
    have hne : x ≠ y := fun he => hx (hl ▸ he ▸ List.mem_cons_self)
    simp only
    split
    · exact ((take q x y).trans (toReady _ hr)).trans (switch _ hne)
    · exact refl x q

theorem yieldTo (hx : x ∉ q.queue .rdy) (hr : x ≠ run) (p : Nat) : Sleeps x q (q.yieldTo run p) := by
  unfold Queues.yieldTo
  split
  · exact refl x q
  · split
    · have hready := toReady q hr
      exact hready.trans (next (hready.rdy hx))
    · exact refl x q

theorem goOn (hx : x ∉ q.queue .rdy) (hr : x ≠ run) (ht : x ≠ t) : Sleeps x q (q.goOn run t) := by
  unfold Queues.goOn
  split
  · exact refl x q
  · split
    · exact dispatch q hr ht
    · have hready := (toReady q hr).trans (toReady _ ht)
      exact hready.trans (next (hready.rdy hx))

theorem resort (hx : x = t → q.place t ≠ some .rdy) : Sleeps x q (q.resort t) := by
  unfold Queues.resort
  cases hp : q.place t with
  | none => exact refl x q
  | some h =>
    refine (take q x t).trans (put fun hh he => hx he ?_)
    rw [hp, hh]

theorem inherit {m : M} (hx : q.place x ≠ some .rdy) : Sleeps x q (q.inherit m run) := by
  unfold Queues.inherit
  split
  · rename_i o ho
    split
    · exact (edit (f := fun v => v.setPrio o (q.vars.prio run)) rfl rfl).trans
        (resort (q := q.edit _) fun he => he ▸ hx)
    · exact refl x q
  · exact refl x q

end Sleeps

/-! ## Being woken -/

/-- The task `x` has been given what it has waited for. -/
structure Woken (x : T) (q q' : Queues M S T) : Prop where
  up : q'.vars.up x
  ret : (q.vars.state x).success = some (q'.vars.ret x)

variable [DecidableEq M] [DecidableEq S] [DecidableEq T]

omit [DecidableEq M] [DecidableEq S] in
theorem up_ready (v : Vars M S T) (x : T) : (v.setState x .READY).up x := .inl (Function.update_self ..)

omit [DecidableEq M] [DecidableEq S] in
theorem up_switch (q : Queues M S T) (x : T) : (q.switch x).vars.up x := .inr (Function.update_self ..)

theorem up_next (h : q.vars.up x) : q.next.vars.up x := by
  unfold Queues.next
  cases q.queue .rdy with
  | nil => exact h
  | cons y l =>
    by_cases hy : x = y
    · subst hy
      exact up_switch _ _
    · have hstate := (Sleeps.take q x y).trans (Sleeps.switch _ hy)
      unfold Vars.up
      rw [hstate.state]
      exact h

theorem up_dispatch (q : Queues M S T) (run x : T) : (q.dispatch run x).vars.up x := by
  unfold Queues.dispatch
  split
  · exact up_switch _ _
  · exact up_ready _ _

theorem up_goOn (hq : q.queue .rdy ≠ []) : (q.goOn run x).vars.up x := by
  unfold Queues.goOn
  cases hl : q.queue .rdy with
  | nil => exact absurd hl hq
  | cons y l =>
    simp only
    split
    · exact up_dispatch q run x
    · exact up_next (up_ready _ _)

/-! ## The functions -/

theorem mutWait_sleeps {m : M} {n : Nat} (hx : x ∉ q.queue .rdy) (hp : q.place x ≠ some .rdy)
    (hr : x ≠ run) : Sleeps x q (q.mutWait run m n) := by
  unfold Queues.mutWait
  split
  · exact Sleeps.edit (f := fun v => v.setMut m _ _ _) rfl rfl
  · split
    · exact Sleeps.edit (f := fun v => v.setLevel m _) rfl rfl
    · split
      · exact Sleeps.refl x q
      · have hinherit : Sleeps x q (q.inherit m run) := Sleeps.inherit hp
        have hput := hinherit.trans (Sleeps.put (h := .mucb m) (t := run) fun h => nomatch h)
        exact hput.trans (Sleeps.block (hput.rdy hx) hr n _)

/-- The release of a mutex that others wait for, with a priority set and the level lowered. -/
theorem mutRelease_cons {m : M} {l : List T} (hl : q.vars.level m = 1) (ho : q.vars.owner m = some run)
    (hw : q.queue (.mucb m) = t :: l) : q.mutRelease run m =
      (((((q.take t).undelay t).edit fun v => v.setPrio run (v.mut_prio m)).edit fun v => v.setRet t osOK).edit
        fun v => v.setMut m 1 (some t) (v.prio t)).goOn run t := by
  have hlevel : (q.edit fun v => v.setLevel m (v.level m - 1)) = q.edit fun v => v.setLevel m 0 := by
    simp only [Queues.edit, hl]
  rw [← handOver_eq q m run t 0]
  unfold Queues.mutRelease
  rw [if_neg (by simp [hl, ho])]
  simp only [hl, Nat.sub_self, hw, ne_eq, not_true, if_false, hlevel]

/-- The first task that waits for a mutex is given it. -/
theorem mutRelease_wakes {m : M} {l : List T} (hl : q.vars.level m = 1) (ho : q.vars.owner m = some run)
    (hw : q.queue (.mucb m) = x :: l) (hx : q.place x = some (.mucb m)) (hs : q.vars.state x = .WAIT_MUT)
    (hne : q.queue .rdy ≠ []) : Woken x q (q.mutRelease run m) := by
  rw [mutRelease_cons hl ho hw]
  have hrdy : (((((q.take x).undelay x).edit fun v => v.setPrio run (v.mut_prio m)).edit
      fun v => v.setRet x osOK).edit fun v => v.setMut m 1 (some x) (v.prio x)).queue .rdy =
      q.queue .rdy := take_queue_of_ne q hx fun h => nomatch h
  refine ⟨up_goOn (by rw [hrdy]; exact hne), ?_⟩
  rw [hs, (Moved.goOn _ _ _).ret]
  exact congrArg some (Function.update_self (f := (q.take x).vars.ret) ..).symm

theorem mutRelease_sleeps {m : M} (hx : x ∉ q.queue .rdy) (hr : x ≠ run) (hne : q.queue .rdy ≠ [])
    (hw : ∀ t, q.place t = some (.mucb m) → q.vars.state t = .WAIT_MUT)
    (hpl : ∀ t l, q.queue (.mucb m) = t :: l → q.place t = some (.mucb m)) :
    Sleeps x q (q.mutRelease run m) ∨
      Woken x q (q.mutRelease run m) ∧ ∃ l, q.queue (.mucb m) = x :: l := by
  by_cases hfree : q.vars.level m = 1 ∧ q.vars.owner m = some run ∧ q.queue (.mucb m) ≠ []
  · obtain ⟨hl, ho, hnil⟩ := hfree
    obtain ⟨t, l, hq⟩ := List.exists_cons_of_ne_nil hnil
    by_cases ht : x = t
    · subst ht
      exact .inr ⟨mutRelease_wakes hl ho hq (hpl x l hq) (hw x (hpl x l hq)) hne, l, hq⟩
    · rw [mutRelease_cons hl ho hq]
      have htake := (Sleeps.take q x t).trans (Sleeps.undelay _ ht)
      have hmut := ((htake.trans (Sleeps.edit (f := fun v => v.setPrio run (v.mut_prio m)) rfl rfl)).trans
        (Sleeps.edit (f := fun v => v.setRet t osOK) rfl (Function.update_of_ne ht ..))).trans
        (Sleeps.edit (f := fun v => v.setMut m 1 (some t) (v.prio t)) rfl rfl)
      exact .inl (hmut.trans (Sleeps.goOn (hmut.rdy hx) hr ht))
  · refine .inl ?_
    unfold Queues.mutRelease
    split
    · exact Sleeps.refl x q
    · rename_i hheld
      simp only
      have hlevel : Sleeps x q (q.edit fun v => v.setLevel m (v.level m - 1)) :=
        Sleeps.edit (f := fun v => v.setLevel m _) rfl rfl
      split
      · exact hlevel
      · rename_i hlast
        have hnil : q.queue (.mucb m) = [] := by
          by_contra hnil
          refine hfree ⟨by omega, ?_, hnil⟩
          by_contra ho
          exact hheld (.inr ho)
        have hprio := hlevel.trans (Sleeps.edit (f := fun v => v.setPrio run (v.mut_prio m)) rfl rfl)
        rw [hnil]
        exact hprio.trans (Sleeps.yieldTo (hprio.rdy hx) hr _)

theorem evtWait_sleeps {f : BitVec 16} {n : Nat} {b : Bool} (hx : x ∉ q.queue .rdy) (hr : x ≠ run) :
    Sleeps x q (q.evtWait run f n b) := by
  have hwaits : Sleeps x q (q.edit fun v => v.setWaits run f) := Sleeps.edit (f := fun v => v.setWaits run f) rfl rfl
  unfold Queues.evtWait
  split <;> split
  · exact Sleeps.edit (f := fun v => v.setEvents run _) rfl rfl
  · simp only
    split
    · exact hwaits
    · exact hwaits.trans (Sleeps.block (hwaits.rdy hx) hr n _)
  · exact Sleeps.edit (f := fun v => (v.setWaits run _).setEvents run _) rfl rfl
  · simp only
    split
    · exact hwaits
    · exact hwaits.trans (Sleeps.block (hwaits.rdy hx) hr n _)

omit [DecidableEq M] [DecidableEq S] [DecidableEq T] in
theorem success_of_satisfied {v : Vars M S T} (h : v.satisfied x = true) :
    (v.state x).success = some osEventSignal := by
  rcases Vars.state_of_satisfied h with hs | hs <;> rw [hs] <;> rfl

omit [DecidableEq M] [DecidableEq S] in
theorem wake_ret (q : Queues M S T) (x : T) : (q.wake x).vars.ret x = osEventSignal :=
  Function.update_self (f := (q.vars.wakeUp x).ret) ..

omit [DecidableEq M] [DecidableEq S] in
theorem wake_sleeps (q : Queues M S T) (ht : x ≠ t) : Sleeps x q (q.wake t) := by
  have hwake : Sleeps x q (q.edit fun v => v.wakeUp t) := by
    refine Sleeps.edit (f := fun v => v.wakeUp t) ?_ ?_ <;> unfold Vars.wakeUp <;> split <;> rfl
  exact (hwake.trans (Sleeps.undelay _ ht)).trans
    (Sleeps.edit (f := fun v => (v.setState t .READY).setRet t osEventSignal) (Function.update_of_ne ht ..)
      (Function.update_of_ne ht ..))

theorem evtSet_sleeps {f : BitVec 16} (hr : x ≠ run) :
    Sleeps x q (q.evtSet run t f) ∨ Woken x q (q.evtSet run t f) ∧
      (q.vars.state x = .WAIT_AND ∨ q.vars.state x = .WAIT_OR) := by
  have hset : Sleeps x q (q.edit fun v => v.setEvents t (v.events t ||| f)) :=
    Sleeps.edit (f := fun v => v.setEvents t _) rfl rfl
  unfold Queues.evtSet
  simp only
  split
  · rename_i hsat
    have hsucc := success_of_satisfied hsat
    have hstate := Vars.state_of_satisfied hsat
    by_cases ht : x = t
    · subst ht
      refine .inr ⟨⟨up_dispatch _ _ _, ?_⟩, hstate⟩
      rw [(Moved.dispatch _ _ _).ret, wake_ret]
      exact hsucc
    · exact .inl ((hset.trans (wake_sleeps _ ht)).trans (Sleeps.dispatch _ hr ht))
  · exact .inl hset

theorem evtPsh_sleeps {f : BitVec 16} :
    Sleeps x q (q.evtPsh t f) ∨ Woken x q (q.evtPsh t f) ∧
      (q.vars.state x = .WAIT_AND ∨ q.vars.state x = .WAIT_OR) := by
  have hset : Sleeps x q (q.edit fun v => v.setEvents t (v.events t ||| f)) :=
    Sleeps.edit (f := fun v => v.setEvents t _) rfl rfl
  unfold Queues.evtPsh
  simp only
  split
  · rename_i hsat
    have hsucc := success_of_satisfied hsat
    have hstate := Vars.state_of_satisfied hsat
    by_cases ht : x = t
    · subst ht
      exact .inr ⟨⟨.inl (Function.update_self ..), hsucc.trans (congrArg some (wake_ret _ x).symm)⟩, hstate⟩
    · exact .inl ((hset.trans (wake_sleeps _ ht)).trans (Sleeps.put fun _ => ht))
  · exact .inl hset

/-- The first task that waits for a token is given it. -/
theorem semSend_wakes {s : S} {l : List T} (hw : q.queue (.scb s) = x :: l) (hs : q.vars.state x = .WAIT_SEM) :
    Woken x q (q.semSend run s) := by
  unfold Queues.semSend
  simp only [hw]
  refine ⟨up_dispatch _ _ _, ?_⟩
  rw [hs, (Moved.dispatch _ _ _).ret]
  exact congrArg some (Function.update_self (f := (q.take x).vars.ret) ..).symm

theorem semSend_sleeps {s : S} (hr : x ≠ run)
    (hw : ∀ t l, q.queue (.scb s) = t :: l → q.vars.state t = .WAIT_SEM) :
    Sleeps x q (q.semSend run s) ∨ Woken x q (q.semSend run s) ∧ ∃ l, q.queue (.scb s) = x :: l := by
  cases hl : q.queue (.scb s) with
  | nil =>
    unfold Queues.semSend
    rw [hl]
    exact .inl (Sleeps.edit (f := fun v => v.setTokens s _) rfl rfl)
  | cons t l =>
    by_cases ht : x = t
    · subst ht
      exact .inr ⟨semSend_wakes hl (hw x l hl), l, rfl⟩
    · unfold Queues.semSend
      rw [hl]
      have hgrant := ((Sleeps.take q x t).trans
        (Sleeps.edit (f := fun v => v.setRet t 1) rfl (Function.update_of_ne ht ..))).trans
        (Sleeps.undelay _ ht)
      exact .inl (hgrant.trans (Sleeps.dispatch _ hr ht))

theorem semPsh_wakes {s : S} {l : List T} (hw : q.queue (.scb s) = x :: l) (hs : q.vars.state x = .WAIT_SEM) :
    Woken x q (q.semPsh s) := by
  unfold Queues.semPsh
  simp only [hw]
  refine ⟨.inl (Function.update_self ..), ?_⟩
  rw [hs]
  show some 1 = some (Function.update (q.take x).vars.ret x 1 x)
  rw [Function.update_self]

theorem semPsh_sleeps {s : S} (hw : ∀ t l, q.queue (.scb s) = t :: l → q.vars.state t = .WAIT_SEM) :
    Sleeps x q (q.semPsh s) ∨ Woken x q (q.semPsh s) ∧ ∃ l, q.queue (.scb s) = x :: l := by
  cases hl : q.queue (.scb s) with
  | nil =>
    unfold Queues.semPsh
    rw [hl]
    exact .inl (Sleeps.edit (f := fun v => v.setTokens s _) rfl rfl)
  | cons t l =>
    by_cases ht : x = t
    · subst ht
      exact .inr ⟨semPsh_wakes hl (hw x l hl), l, rfl⟩
    · unfold Queues.semPsh
      rw [hl]
      have hgrant := ((Sleeps.take q x t).trans (Sleeps.undelay _ ht)).trans
        (Sleeps.edit (f := fun v => (v.setState t .READY).setRet t 1) (Function.update_of_ne ht ..)
          (Function.update_of_ne ht ..))
      exact .inl (hgrant.trans (Sleeps.put fun _ => ht))

theorem semWait_sleeps {s : S} {n : Nat} (hx : x ∉ q.queue .rdy) (hr : x ≠ run) :
    Sleeps x q (q.semWait run s n) := by
  unfold Queues.semWait
  split
  · exact Sleeps.edit (f := fun v => v.setTokens s _) rfl rfl
  · split
    · exact Sleeps.refl x q
    · have hput : Sleeps x q (q.put (.scb s) run) := Sleeps.put fun h => nomatch h
      exact hput.trans (Sleeps.block (hput.rdy hx) hr n _)

theorem reprio_sleeps {p : Nat} (hx : x ∉ q.queue .rdy) (hp : q.place x ≠ some .rdy) (hr : x ≠ run) :
    Sleeps x q (q.reprio run t p) := by
  have hsort : Sleeps x q ((q.edit fun v => v.setPrio t p).resort t) :=
    (Sleeps.edit (f := fun v => v.setPrio t p) rfl rfl).trans
      (Sleeps.resort (q := q.edit _) fun he => he ▸ hp)
  unfold Queues.reprio
  simp only
  split
  · cases hl : ((q.edit fun v => v.setPrio t p).resort t).queue .rdy with
    | nil => exact hsort
    | cons y l =>
      have hne : x ≠ y := fun he => hsort.rdy hx (hl ▸ he ▸ List.mem_cons_self)
      exact hsort.trans ((Sleeps.take _ x y).trans (Sleeps.dispatch _ hr hne))
  · exact hsort

theorem finish_sleeps (hx : x ∉ q.queue .rdy) (hr : x ≠ run) : Sleeps x q (q.finish run) := by
  have hend : Sleeps x q (q.edit fun v =>
      { (v.setState run .INACTIVE).setActive (v.task_id run - 1) none with run := none }) :=
    Sleeps.edit (f := fun v =>
      { (v.setState run .INACTIVE).setActive (v.task_id run - 1) none with run := none })
      (Function.update_of_ne hr ..) rfl
  exact hend.trans (Sleeps.next (hend.rdy hx))

theorem kill_sleeps (q : Queues M S T) (ht : x ≠ t) (i : Nat) : Sleeps x q (q.kill t i) := by
  have htake := Sleeps.take q x t
  have hstale : Sleeps x q { q.take t with stale := Function.update q.stale t true } :=
    ⟨htake.state, htake.ret, htake.date, htake.now, htake.rdy⟩
  exact (hstale.trans (Sleeps.undelay _ ht)).trans (Sleeps.edit (f := fun v => v.setActive i none) rfl rfl)

omit [DecidableEq M] [DecidableEq S] in
theorem enrol_sleeps (q : Queues M S T) (ht : x ≠ t) (p i : Nat) : Sleeps x q (q.enrol t p i) :=
  ⟨Function.update_of_ne ht .., rfl, fun _ => Iff.rfl, rfl, id⟩

theorem robin_sleeps (hx : x ∉ q.queue .rdy) : Sleeps x q q.robin := by
  have hswap : ∀ q₁ : Queues M S T, x ∉ q₁.queue .rdy → Sleeps x q₁ q₁.swapRobin := by
    intro q₁ hx₁
    unfold Queues.swapRobin
    split
    · cases hl : q₁.queue .rdy with
      | nil => exact Sleeps.refl x q₁
      | cons y l =>
        have hne : x ≠ y := fun he => hx₁ (hl ▸ he ▸ List.mem_cons_self)
        exact ((Sleeps.edit (f := fun v => { v with robin_task := none }) rfl rfl).trans
          (Sleeps.take _ x y)).trans (Sleeps.put fun _ => hne)
    · exact Sleeps.refl x q₁
  unfold Queues.robin
  split
  · exact (Sleeps.edit (f := fun v => { v with
      robin_task := (q.queue .rdy).head?, robin_time := u16 (u16 v.os_time + v.robin_tout + 65535) })
      rfl rfl).trans (hswap _ hx)
  · exact hswap q hx

end Expedition.Rtx
