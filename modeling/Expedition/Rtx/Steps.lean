import Expedition.Rtx.Sound

/-!
# What every kernel function keeps

Each function of the kernel, seen as its moves on the lists, goes from a state with a task chosen to
one with a task chosen: every task is where its state says, the lists are sorted, and no ready task is
above the one that runs next.

* `Chosen.mutWait`, `Chosen.mutRelease` — mutexes; `Chosen.evtWait`, `Chosen.evtSet` — signals;
  `Chosen.semWait`, `Chosen.semSend` — semaphores;
* `Chosen.reprio`, `Chosen.finish`, `Chosen.kill`, `Chosen.create` — tasks;
* `Sound.evtPsh`, `Sound.semPsh` — what an interrupt has asked for; `Chosen.systick` — the tick.
-/

namespace Expedition.Rtx

open Queues

variable {M S T : Type} [DecidableEq M] [DecidableEq S] [DecidableEq T] {idle : T} {P : T → Prop}
  {q : Queues M S T} {x t : T} {l : List T} {m : M} {s : S}

/-! ## Small changes -/

omit [DecidableEq M] [DecidableEq S] in
theorem undelay_awake (q : Queues M S T) (t : T) : t ∉ (q.undelay t).delayed := by
  intro hm
  obtain ⟨p, hp, he⟩ := List.mem_map.mp hm
  have hne := (List.mem_filter.mp hp).2
  simp only [ne_eq, decide_not, Bool.not_eq_true', decide_eq_false_iff_not] at hne
  exact hne he

omit [DecidableEq M] [DecidableEq S] in
theorem mem_undelay {u : T} (hu : u ∈ (q.undelay t).delayed) : u ∈ q.delayed := by
  obtain ⟨p, hp, rfl⟩ := List.mem_map.mp hu
  exact List.mem_map_of_mem (List.mem_filter.mp hp).1

omit [DecidableEq M] [DecidableEq S] [DecidableEq T] in
theorem swap_hand (a b u : T) : u ∈ [a, b] ↔ u ∈ [b, a] := by
  simp only [List.mem_cons, List.not_mem_nil, or_false]
  exact or_comm

theorem take_delayed (q : Queues M S T) (t : T) : (q.take t).delayed = q.delayed := by
  rw [Queues.delayed, take_delay]

namespace Sole

omit [DecidableEq M] [DecidableEq S] [DecidableEq T] in
theorem edit {f : Vars M S T → Vars M S T} (hq : Sole idle P q x l) (hf : q.vars.Alike (f q.vars))
    (hn : (f q.vars).new_tsk = q.vars.new_tsk) : Sole idle P (q.edit f) x l where
  sound := hq.sound.edit hf
  out := hq.out
  awake := hq.awake
  running := (congrFun hf.state x).trans hq.running
  new_tsk := hn.trans hq.new_tsk

/-- A task that is not running is taken out of whatever list it is in. -/
theorem pull (hq : Sole idle P q x []) (ht : Live idle q.vars t) (htx : t ≠ x) :
    Sole idle P ((q.take t).undelay t) x [t] where
  sound := ((((hq.sound.pick ht).take List.mem_cons_self).undelay t).perm (swap_hand x t))
  out := (take_place_of_ne htx.symm).trans hq.out
  awake hm := hq.awake (take_delayed q t ▸ mem_undelay hm)
  running := (congrArg (fun v => Vars.state v x) take_vars).trans hq.running
  new_tsk := (congrArg Vars.new_tsk take_vars).trans hq.new_tsk

omit [DecidableEq M] [DecidableEq S] in
theorem setState {s : TaskState} (hq : Sole idle P q x l) (ht : t ∈ l) (htx : t ≠ x) :
    Sole idle P (q.edit fun v => v.setState t s) x l where
  sound := hq.sound.setState (List.mem_cons_of_mem _ ht) s
  out := hq.out
  awake := hq.awake
  running := (Function.update_of_ne htx.symm ..).trans hq.running
  new_tsk := hq.new_tsk

omit [DecidableEq M] [DecidableEq S] in
theorem setPrio {p : Nat} (hq : Sole idle P q x l) (ht : q.place t = none) :
    Sole idle P (q.edit fun v => v.setPrio t p) x l :=
  ⟨hq.sound.setPrio ht p, hq.out, hq.awake, hq.running, hq.new_tsk⟩

end Sole

namespace Chosen

omit [DecidableEq M] [DecidableEq S] [DecidableEq T] in
theorem edit {f : Vars M S T → Vars M S T} (hq : Chosen idle P q x l) (hf : q.vars.Alike (f q.vars))
    (hn : (f q.vars).new_tsk = q.vars.new_tsk) : Chosen idle P (q.edit f) x l where
  toSole := hq.toSole.edit hf hn
  top u hu := by
    rw [edit_vars, hf.prio]
    exact hq.top u hu

theorem pull (hq : Chosen idle P q x []) (ht : Live idle q.vars t) (htx : t ≠ x) :
    Chosen idle P ((q.take t).undelay t) x [t] where
  toSole := hq.toSole.pull ht htx
  top u hu := by
    change u ∈ (q.take t).queue .rdy at hu
    rw [hq.sound.wf.take_queue] at hu
    show (q.take t).vars.prio u ≤ (q.take t).vars.prio x
    rw [take_vars]
    exact hq.top u (List.mem_of_mem_erase hu)

omit [DecidableEq M] [DecidableEq S] in
theorem setState {s : TaskState} (hq : Chosen idle P q x l) (ht : t ∈ l) (htx : t ≠ x) :
    Chosen idle P (q.edit fun v => v.setState t s) x l :=
  ⟨hq.toSole.setState ht htx, hq.top⟩

omit [DecidableEq M] [DecidableEq S] [DecidableEq T] in
/-- What is known of the task that runs. -/
theorem live (hq : Chosen idle P q x l) : Live idle q.vars x := hq.sound.inHand x List.mem_cons_self

omit [DecidableEq M] [DecidableEq S] [DecidableEq T] in
/-- A task whose state is not `RUNNING` is not the running one. -/
theorem ne_of_state (hq : Chosen idle P q x l) (ht : q.vars.state t ≠ .RUNNING) : t ≠ x := by
  rintro rfl
  exact ht hq.running

omit [DecidableEq M] [DecidableEq S] [DecidableEq T] in
theorem ne_of_place {h : Head M S} (hq : Chosen idle P q x l) (ht : q.place t = some h) : t ≠ x := by
  rintro rfl
  rw [hq.out] at ht
  cases ht

omit [DecidableEq M] [DecidableEq S] [DecidableEq T] in
/-- While another task than the idle demon runs, that one is ready. -/
theorem idle_ready (hq : Chosen idle P q x []) (hx : x ≠ idle) : idle ∈ q.queue .rdy := by
  refine (hq.sound.wf.place .rdy idle).mpr (hq.sound.demon.resolve_left fun hm => ?_)
  exact hx (List.mem_singleton.mp hm).symm

end Chosen

/-! ## Semaphores -/

/-- The first task that waits for a semaphore is out of all lists once it has its token. -/
theorem Chosen.grant (hq : Chosen idle P q x []) (ht : q.place t = some (.scb s)) :
    Chosen idle P (q.grant t) x [t] :=
  (hq.pull (hq.sound.placed t _ ht) (hq.ne_of_place ht)).edit (f := fun v => v.setRet t 1)
    ⟨rfl, rfl, rfl, rfl, rfl, rfl, rfl, rfl⟩ rfl

theorem Chosen.semSend (hq : Chosen idle P q x []) (s : S) :
    ∃ y, Chosen idle P (q.semSend x s) y [] := by
  unfold Queues.semSend
  cases hl : q.queue (.scb s) with
  | nil =>
    exact ⟨x, ⟨hq.sound.setTokens hl _, hq.out, hq.awake, hq.running, hq.new_tsk⟩, hq.top⟩
  | cons t l =>
    have ht : q.place t = some (.scb s) := (hq.sound.wf.place _ t).mp (hl ▸ List.mem_cons_self)
    exact (hq.grant ht).dispatch (hq.ne_of_place ht) take_place_self (undelay_awake _ t)

theorem Chosen.semWait {n : Nat} (hq : Chosen idle P q x []) (hx : x ≠ idle) (s : S) :
    ∃ y, Chosen idle P (q.semWait x s n) y [] := by
  unfold Queues.semWait
  split
  · rename_i htok
    have hempty : q.queue (.scb s) = [] := by
      by_contra hne
      obtain ⟨t, l, hl⟩ := List.exists_cons_of_ne_nil hne
      exact htok (hq.sound.spent s t ((hq.sound.wf.place _ t).mp (hl ▸ List.mem_cons_self)))
    exact ⟨x, ⟨hq.sound.setTokens hempty _, hq.out, hq.awake, hq.running, hq.new_tsk⟩, hq.top⟩
  · rename_i htok
    split
    · exact ⟨x, hq⟩
    · rename_i hn
      have hput := hq.sound.put (h := .scb s) List.mem_cons_self hq.out (not_ne_iff.mp htok)
      refine hput.block hq.awake hx ?_ (by simp) hn
      rw [put_place_self]
      rfl

/-- A semaphore is released for an interrupt. -/
theorem Sound.semPsh (hq : Sound idle P q []) (s : S) : Sound idle P (q.semPsh s) [] := by
  unfold Queues.semPsh
  cases hl : q.queue (.scb s) with
  | nil => exact hq.setTokens hl _
  | cons t l =>
    have ht : q.place t = some (.scb s) := (hq.wf.place _ t).mp (hl ▸ List.mem_cons_self)
    have hpull := ((hq.pick (hq.placed t _ ht)).take List.mem_cons_self).undelay t
    have hedit := (hpull.setState List.mem_cons_self .READY).edit (f := fun v => v.setRet t 1)
      ⟨rfl, rfl, rfl, rfl, rfl, rfl, rfl, rfl⟩
    refine (hedit.put (h := .rdy) List.mem_cons_self take_place_self (undelay_awake _ t)).drop ?_
      fun _ => put_place_self _ _ _
    rw [put_place_self]
    exact Function.update_self ..

/-! ## Events -/

omit [DecidableEq M] [DecidableEq S] [DecidableEq T] in
/-- Only a task that waits for events has what it waits for. -/
theorem Vars.state_of_satisfied {v : Vars M S T} (h : v.satisfied t = true) :
    v.state t = .WAIT_AND ∨ v.state t = .WAIT_OR := by
  unfold Vars.satisfied at h
  split at h
  · exact .inl ‹_›
  · exact .inr ‹_›
  · cases h

omit [DecidableEq M] [DecidableEq S] [DecidableEq T] in
/-- A task that waits for events is in no list but the delay list. -/
theorem Sound.place_of_waiting {hand : List T} (hq : Sound idle P q hand) (ht : Live idle q.vars t)
    (hh : t ∉ hand) (hs : q.vars.state t = .WAIT_AND ∨ q.vars.state t = .WAIT_OR) : q.place t = none := by
  have hr := hq.rests t ht hh
  cases hp : q.place t with
  | none => rfl
  | some h =>
    rw [hp] at hr
    cases h <;> rcases hs with hs | hs <;> rw [show _ = _ from hr] at hs <;> cases hs

theorem Chosen.evtWait {n : Nat} {b : Bool} (hq : Chosen idle P q x []) (hx : x ≠ idle) (f : BitVec 16) :
    ∃ y, Chosen idle P (q.evtWait x f n b) y [] := by
  have hwaits : Chosen idle P (q.edit fun v => v.setWaits x f) x [] :=
    hq.edit ⟨rfl, rfl, rfl, rfl, rfl, rfl, rfl, rfl⟩ rfl
  have hblock : ∀ st : TaskState, st = .WAIT_AND ∨ st = .WAIT_OR →
      ∃ y, Chosen idle P (if n = 0 then q.edit fun v => v.setWaits x f
        else (q.edit fun v => v.setWaits x f).block x n st) y [] := by
    intro st hst
    split
    · exact ⟨x, hwaits⟩
    · rename_i hn
      refine hwaits.sound.block hwaits.awake hx ?_ ?_ hn
      · rw [hwaits.out]
        exact .inr hst.symm
      · rcases hst with rfl | rfl <;> simp
  unfold Queues.evtWait
  split
  · split
    · exact ⟨x, hq.edit ⟨rfl, rfl, rfl, rfl, rfl, rfl, rfl, rfl⟩ rfl⟩
    · exact hblock .WAIT_AND (.inl rfl)
  · split
    · exact ⟨x, hq.edit ⟨rfl, rfl, rfl, rfl, rfl, rfl, rfl, rfl⟩ rfl⟩
    · exact hblock .WAIT_OR (.inr rfl)

theorem Chosen.evtSet (hq : Chosen idle P q x []) (ht : Live idle q.vars t) (f : BitVec 16) :
    ∃ y, Chosen idle P (q.evtSet x t f) y [] := by
  have hset : Chosen idle P (q.edit fun v => v.setEvents t (v.events t ||| f)) x [] :=
    hq.edit ⟨rfl, rfl, rfl, rfl, rfl, rfl, rfl, rfl⟩ rfl
  unfold Queues.evtSet
  simp only
  split
  · rename_i hsat
    have hstate := Vars.state_of_satisfied hsat
    have htx : t ≠ x := hq.ne_of_state fun he => by
      rcases hstate with hs | hs <;> rw [show q.vars.state t = _ from hs] at he <;> cases he
    have hout := hset.sound.place_of_waiting ht (fun hm => htx (List.mem_singleton.mp hm)) hstate
    have hwake : Chosen idle P ((q.edit fun v => v.setEvents t (v.events t ||| f)).edit fun v => v.wakeUp t)
        x [] := hset.edit ⟨rfl, rfl, rfl, rfl, rfl, rfl, rfl, rfl⟩ rfl
    have hpull := hwake.pull ht htx
    rw [edit_take, take_none hout] at hpull
    have hready := (hpull.setState (s := .READY) List.mem_cons_self htx).edit
      (f := fun v => v.setRet t osEventSignal) ⟨rfl, rfl, rfl, rfl, rfl, rfl, rfl, rfl⟩ rfl
    exact hready.dispatch htx hout (undelay_awake _ t)
  · exact ⟨x, hset⟩

/-- Signals are set for an interrupt. -/
theorem Sound.evtPsh (hq : Sound idle P q []) (ht : Live idle q.vars t ∨ q.vars.state t = .INACTIVE)
    (f : BitVec 16) : Sound idle P (q.evtPsh t f) [] := by
  have hset : Sound idle P (q.edit fun v => v.setEvents t (v.events t ||| f)) [] :=
    hq.edit ⟨rfl, rfl, rfl, rfl, rfl, rfl, rfl, rfl⟩
  unfold Queues.evtPsh
  simp only
  split
  · rename_i hsat
    have hstate := Vars.state_of_satisfied hsat
    have hlive : Live idle q.vars t := ht.resolve_right fun he => by
      rcases hstate with hs | hs <;> rw [show q.vars.state t = _ from hs] at he <;> cases he
    have hout := hset.place_of_waiting hlive List.not_mem_nil hstate
    have hwake : Sound idle P ((q.edit fun v => v.setEvents t (v.events t ||| f)).edit fun v => v.wakeUp t)
        [] := hset.edit ⟨rfl, rfl, rfl, rfl, rfl, rfl, rfl, rfl⟩
    have hready := (((hwake.pick hlive).undelay t).setState List.mem_cons_self .READY).edit
      (f := fun v => v.setRet t osEventSignal) ⟨rfl, rfl, rfl, rfl, rfl, rfl, rfl, rfl⟩
    refine (hready.put (h := .rdy) List.mem_cons_self hout (undelay_awake _ t)).drop ?_
      fun _ => put_place_self _ _ _
    rw [put_place_self]
    exact Function.update_self ..
  · exact hset

/-! ## Mutexes -/

/-- The owner of a mutex goes on with the priority of the task that is about to wait for it, where its
own was lower when it took the mutex. -/
theorem Sound.inherit {hand : List T} (hq : Sound idle P q hand)
    (ho : ∀ o, q.vars.owner m = some o → q.vars.mut_prio m < q.vars.prio x → Live idle q.vars o ∧ o ∉ hand) :
    Sound idle P (q.inherit m x) hand := by
  unfold Queues.inherit
  split
  · rename_i o howner
    split
    · rename_i hp
      obtain ⟨hlive, hh⟩ := ho o howner hp
      exact hq.resort hlive hh _
    · exact hq
  · exact hq

theorem inherit_place_of_ne {u : T} (hu : q.vars.owner m ≠ some u) : (q.inherit m x).place u = q.place u := by
  unfold Queues.inherit
  split
  · rename_i o ho
    have huo : u ≠ o := by
      rintro rfl
      exact hu ho
    split
    · exact resort_place_of_ne _ huo
    · rfl
  · rfl

theorem resort_delay (q : Queues M S T) (t : T) : (q.resort t).delay = q.delay := by
  unfold Queues.resort
  split
  · rfl
  · exact take_delay

theorem inherit_delayed (q : Queues M S T) (m : M) (x : T) : (q.inherit m x).delayed = q.delayed := by
  unfold Queues.inherit
  split
  · split
    · exact congrArg (List.map Prod.fst) (resort_delay _ _)
    · rfl
  · rfl

/-- Only the priority of the owner changes. -/
theorem inherit_vars (q : Queues M S T) (m : M) (x : T) :
    (q.inherit m x).vars = { q.vars with prio := (q.inherit m x).vars.prio } := by
  unfold Queues.inherit
  split
  · split
    · rw [resort_vars]
      rfl
    · rfl
  · rfl

theorem Chosen.mutWait {n : Nat} (hq : Chosen idle P q x []) (hx : x ≠ idle)
    (hlevel : q.vars.owner m = some x → q.vars.level m < 65535)
    (ho : ∀ o, q.vars.level m ≠ 0 → q.vars.owner m = some o → q.vars.mut_prio m < q.vars.prio x →
      Live idle q.vars o) :
    ∃ y, Chosen idle P (q.mutWait x m n) y [] := by
  unfold Queues.mutWait
  split
  · rename_i hl
    have hone : u16 (q.vars.level m + 1) ≠ 0 := by
      rw [hl]
      decide
    have hfree : q.place x ≠ some (.mucb m) := by
      rw [hq.out]
      simp
    exact ⟨x, ⟨hq.sound.setMut hone hfree, hq.out, hq.awake, hq.running, hq.new_tsk⟩, hq.top⟩
  · rename_i hl
    split
    · rename_i howner
      have hlt := hlevel howner
      have hmore : u16 (q.vars.level m + 1) ≠ 0 := by
        unfold u16
        omega
      exact ⟨x, ⟨hq.sound.setLevel (fun _ => hl) fun h => absurd h hmore, hq.out, hq.awake, hq.running,
        hq.new_tsk⟩, hq.top⟩
    · rename_i howner
      split
      · exact ⟨x, hq⟩
      · rename_i hn
        have hinh : Sound idle P (q.inherit m x) [x] := hq.sound.inherit fun o h hp =>
          ⟨ho o hl h hp, fun hm => howner (List.mem_singleton.mp hm ▸ h)⟩
        have hout : (q.inherit m x).place x = none := (inherit_place_of_ne howner).trans hq.out
        have hadm : (q.inherit m x).Admits x (.mucb m) := by
          unfold Queues.Admits
          rw [inherit_vars]
          exact ⟨hl, howner⟩
        refine (hinh.put List.mem_cons_self hout hadm).block ?_ hx ?_ (by simp) hn
        · show x ∉ (q.inherit m x).delayed
          rw [inherit_delayed]
          exact hq.awake
        · rw [put_place_self]
          rfl

/-- A mutex that is handed over is unlocked on the way only for its new owner. -/
theorem handOver_eq (q : Queues M S T) (m : M) (x t : T) (n : Nat) :
    ((q.edit fun v => v.setLevel m n).edit fun v => v.setPrio x (v.mut_prio m)).handOver m t =
      (((((q.take t).undelay t).edit fun v => v.setPrio x (v.mut_prio m)).edit fun v => v.setRet t osOK).edit
        fun v => v.setMut m 1 (some t) (v.prio t)) := by
  unfold Queues.handOver
  rw [edit_take, edit_take]
  simp [Queues.edit, Queues.undelay, Vars.setMut, Vars.setLevel, Vars.setPrio, Vars.setRet,
    Function.update_idem]

theorem Chosen.handOver (hq : Chosen idle P q x []) (ht : q.place t = some (.mucb m)) (n : Nat) :
    Sole idle P (((q.edit fun v => v.setLevel m n).edit fun v => v.setPrio x (v.mut_prio m)).handOver m t)
      x [t] := by
  have htx := hq.ne_of_place ht
  have hpull := hq.toSole.pull (hq.sound.placed t _ ht) htx
  have hprio := hpull.setPrio (p := q.vars.mut_prio m) hpull.out
  have hret := hprio.edit (f := fun v => v.setRet t osOK) ⟨rfl, rfl, rfl, rfl, rfl, rfl, rfl, rfl⟩ rfl
  have hfree : (q.take t).place t ≠ some (.mucb m) := by
    rw [take_place_self]
    simp
  rw [handOver_eq, show ((q.take t).undelay t).edit (fun v => v.setPrio x (v.mut_prio m)) =
    ((q.take t).undelay t).edit fun v => v.setPrio x (q.vars.mut_prio m) by
      simp only [Queues.edit, Queues.undelay, take_vars]]
  exact ⟨hret.sound.setMut Nat.one_ne_zero hfree, hret.out, hret.awake, hret.running, hret.new_tsk⟩

/-- A task that has been given the mutex goes on, or the task that gave it, or a third. -/
theorem Sole.goOn (hq : Sole idle P q x [t]) (htx : t ≠ x) (hx : x ≠ idle) (ht : t ≠ idle)
    (hout : q.place t = none) (hd : t ∉ q.delayed) : ∃ y, Chosen idle P (q.goOn x t) y [] := by
  have hidle : idle ∈ q.queue .rdy := by
    refine (hq.sound.wf.place .rdy idle).mpr (hq.sound.demon.resolve_left fun hm => ?_)
    rcases List.mem_cons.mp hm with he | hm
    · exact hx he.symm
    · exact ht (List.mem_singleton.mp hm).symm
  obtain ⟨z, l, hz⟩ := List.exists_cons_of_ne_nil (List.ne_nil_of_mem hidle)
  have hfall := falling_cons.mp (hz ▸ hq.sound.falling .rdy)
  unfold Queues.goOn
  simp only [hz]
  split
  · rename_i hp
    refine Chosen.dispatch ⟨hq, fun u hu => ?_⟩ htx hout hd
    rw [hz] at hu
    rcases List.mem_cons.mp hu with rfl | hu
    · exact hp
    · exact (hfall.1 u hu).trans hp
  · refine ((hq.sound.toReady hq.out hq.awake).toReady ?_ hd).next
    exact (put_place_of_ne q .rdy htx).trans hout

theorem Chosen.mutRelease (hq : Chosen idle P q x []) (hx : x ≠ idle) (m : M) :
    ∃ y, Chosen idle P (q.mutRelease x m) y [] := by
  unfold Queues.mutRelease
  split
  · exact ⟨x, hq⟩
  · rename_i hown
    rw [not_or] at hown
    simp only
    split
    · rename_i hl
      exact ⟨x, ⟨hq.sound.setLevel (fun _ => hown.1) fun h => absurd h hl, hq.out, hq.awake, hq.running,
        hq.new_tsk⟩, hq.top⟩
    · rename_i hl
      cases hw : q.queue (.mucb m) with
      | nil =>
        have hfree : Sole idle P (q.edit fun v => v.setLevel m (v.level m - 1)) x [] :=
          ⟨hq.sound.setLevel (fun _ => hown.1) fun _ => hw, hq.out, hq.awake, hq.running, hq.new_tsk⟩
        have hback := (hfree.setPrio (p := q.vars.mut_prio m) hq.out).yieldTo
        have hp : (((q.edit fun v => v.setLevel m (v.level m - 1)).edit
            fun v => v.setPrio x (q.vars.mut_prio m)).vars.prio x) = q.vars.mut_prio m :=
          Function.update_self ..
        rw [hp] at hback
        exact hback
      | cons t l =>
        have ht : q.place t = some (.mucb m) := (hq.sound.wf.place _ t).mp (hw ▸ List.mem_cons_self)
        have htx := hq.ne_of_place ht
        have hgive := hq.handOver ht (q.vars.level m - 1)
        have hti : t ≠ idle := by
          rintro rfl
          have hrdy := (hq.sound.wf.place .rdy t).mp (hq.idle_ready hx)
          rw [ht] at hrdy
          cases hrdy
        refine hgive.goOn htx hx hti ?_ ?_
        · rw [handOver_eq]
          exact take_place_self
        · rw [handOver_eq]
          exact undelay_awake _ t

/-! ## Tasks -/

/-- A task is where it was after it has been sorted in anew. -/
theorem resort_place (q : Queues M S T) (t : T) : (q.resort t).place = q.place := by
  funext u
  by_cases hu : u = t
  · subst hu
    unfold Queues.resort
    cases hp : q.place u with
    | none => exact hp
    | some h => exact put_place_self _ _ _
  · exact resort_place_of_ne q hu

omit [DecidableEq M] [DecidableEq S] in
/-- The running task has a new priority. -/
theorem Chosen.setPrio (hq : Chosen idle P q x []) (p : Nat) :
    Sole idle P (q.edit fun v => v.setPrio x p) x [] := hq.toSole.setPrio hq.out

theorem Chosen.reself (hq : Chosen idle P q x []) (p : Nat) :
    ∃ y, Chosen idle P ((q.edit fun v => v.setPrio x p).yieldTo x p) y [] := by
  have h := (hq.setPrio p).yieldTo
  rwa [show (q.edit fun v => v.setPrio x p).vars.prio x = p from Function.update_self ..] at h

theorem Chosen.reprio (hq : Chosen idle P q x []) (ht : Live idle q.vars t) (htx : t ≠ x) (p : Nat) :
    ∃ y, Chosen idle P (q.reprio x t p) y [] := by
  have hsound : Sound idle P ((q.edit fun v => v.setPrio t p).resort t) [x] :=
    hq.sound.resort ht (fun hm => htx (List.mem_singleton.mp hm)) p
  have hvars : ((q.edit fun v => v.setPrio t p).resort t).vars = q.vars.setPrio t p := resort_vars _ _
  have hmem : ∀ u, u ∈ ((q.edit fun v => v.setPrio t p).resort t).queue .rdy ↔ u ∈ q.queue .rdy := by
    intro u
    rw [hsound.wf.place, resort_place, hq.sound.wf.place]
    rfl
  have hother : ∀ u ∈ q.queue .rdy, u ≠ t → (q.vars.setPrio t p).prio u ≤ (q.vars.setPrio t p).prio x := by
    intro u hu hut
    show Function.update q.vars.prio t p u ≤ Function.update q.vars.prio t p x
    rw [Function.update_of_ne hut, Function.update_of_ne htx.symm]
    exact hq.top u hu
  have hsole : Sole idle P ((q.edit fun v => v.setPrio t p).resort t) x [] :=
    ⟨hsound, (congrFun (resort_place _ t) x).trans hq.out,
      fun hm => hq.awake (by rwa [Queues.delayed, resort_delay] at hm),
      (congrArg (fun v => Vars.state v x) hvars).trans hq.running,
      (congrArg Vars.new_tsk hvars).trans hq.new_tsk⟩
  have hrests := hq.sound.rests t ht fun hm => htx (List.mem_singleton.mp hm)
  unfold Queues.reprio
  simp only
  generalize (q.edit fun v => v.setPrio t p).resort t = q₁ at hsound hvars hmem hsole
  split
  · cases hl : q₁.queue .rdy with
    | nil => exact ⟨x, hsole, by simp [hl]⟩
    | cons y l =>
      have hfall := falling_cons.mp (hl ▸ hsound.falling .rdy)
      have hy : q₁.place y = some .rdy := (hsound.wf.place .rdy y).mp (hl ▸ List.mem_cons_self)
      have hyx : y ≠ x := by
        rintro rfl
        rw [hsole.out] at hy
        cases hy
      have htake : Sole idle P (q₁.take y) x [y] :=
        ⟨((hsound.pick (hsound.placed y _ hy)).take List.mem_cons_self).perm (swap_hand x y),
          (take_place_of_ne hyx.symm).trans hsole.out, take_delayed q₁ y ▸ hsole.awake,
          (congrArg (fun v => Vars.state v x) take_vars).trans hsole.running,
          (congrArg Vars.new_tsk take_vars).trans hsole.new_tsk⟩
      refine Chosen.dispatch ⟨htake, fun u hu => ?_⟩ hyx take_place_self ?_
      · rw [hsound.wf.take_queue, hl, List.erase_cons_head] at hu
        rw [take_vars, hvars]
        have huy : u ≠ y := by
          rintro rfl
          exact (List.nodup_cons.mp (hl ▸ hsound.wf.nodup .rdy)).1 hu
        by_cases hut : u = t
        · refine (hvars ▸ hfall.1 u hu).trans (hother y ?_ fun he => huy (hut.trans he.symm))
          exact (hmem y).mp (hl ▸ List.mem_cons_self)
        · exact hother u ((hmem u).mp (hl ▸ List.mem_cons_of_mem _ hu)) hut
      · rw [take_delayed]
        exact hsound.awake y hy
  · rename_i hs
    refine ⟨x, hsole, fun u hu => ?_⟩
    have hu := (hmem u).mp hu
    rw [hvars]
    refine hother u hu fun he => hs ?_
    rw [(hq.sound.wf.place .rdy t).mp (he ▸ hu)] at hrests
    exact hrests

omit [DecidableEq M] [DecidableEq S] [DecidableEq T] in
/-- A live task other than the idle demon has a slot. -/
theorem Sound.slot {hand : List T} (hq : Sound idle P q hand) (ht : Live idle q.vars t) (hi : t ≠ idle) :
    ∃ i, q.vars.os_active_TCB i = some t ∧ q.vars.task_id t = i + 1 := by
  obtain ⟨i, h⟩ := ht.resolve_left hi
  exact ⟨i, h, (hq.slots i t h).2.2.1⟩

/-- The running task ends. -/
theorem Chosen.finish (hq : Chosen idle P q x []) (hx : x ≠ idle) :
    ∃ y, Chosen idle P (q.finish x) y [] := by
  obtain ⟨i, hact, hid⟩ := hq.sound.slot hq.live hx
  have hact' : q.vars.os_active_TCB (q.vars.task_id x - 1) = some x := by
    rw [hid]
    exact hact
  refine (Sound.bury (v := _) (z := q.stale) hq.sound List.not_mem_nil hq.out hq.awake hx hact'
    (fun _ _ => rfl) ?_ (fun u hu => ?_) fun _ => Function.update_self ..).next
  · rfl
  · exact Function.update_of_ne hu ..

/-- A task is ended by another; no interrupt may have named it. -/
theorem Chosen.kill {i : Nat} (hq : Chosen idle P q x []) (htx : t ≠ x)
    (hact : q.vars.os_active_TCB i = some t) (hP : ¬ P t) : Chosen idle P (q.kill t i) x [] := by
  have hi : t ≠ idle := (hq.sound.slots i t hact).1
  have hpull := hq.pull (.inr ⟨i, hact⟩) htx
  have hbury := Sound.bury (v := q.vars.setActive i none) (z := Function.update q.stale t true)
    (hpull.sound.perm (swap_hand t x)) (fun hm => htx (List.mem_singleton.mp hm)) take_place_self
    (undelay_awake _ t) hi (i := i) ?_ ?_ ?_ ?_ fun h => absurd h hP
  · have heq : q.kill t i = { (q.take t).undelay t with
        stale := Function.update q.stale t true, vars := q.vars.setActive i none } := by
      simp only [Queues.kill, Queues.edit, Queues.undelay, take_vars]
    rw [heq]
    refine ⟨⟨hbury, hpull.out, hpull.awake, hq.running, hq.new_tsk⟩, fun u hu => ?_⟩
    change u ∈ (q.take t).queue .rdy at hu
    rw [hq.sound.wf.take_queue] at hu
    exact hq.top u (List.mem_of_mem_erase hu)
  · show (q.take t).vars.os_active_TCB i = some t
    rw [take_vars]
    exact hact
  · intro u hu
    show Function.update q.stale t true u = (q.take t).stale u
    rw [Function.update_of_ne hu, take_stale]
  · rw [show ((q.take t).undelay t).vars = q.vars from take_vars]
    rfl
  · intro u hu
    show q.vars.state u = (q.take t).vars.state u
    rw [take_vars]

/-- A task that is not live is created. -/
theorem Chosen.create {i p : Nat} (hq : Chosen idle P q x []) (ht : ¬ Live idle q.vars t)
    (hact : q.vars.os_active_TCB i = none) (hi : i < os_maxtaskrun) :
    ∃ y, Chosen idle P ((q.enrol t p i).dispatch x t) y [] := by
  have htx : t ≠ x := by
    rintro rfl
    exact ht hq.live
  have hout : q.place t = none := by
    by_contra hp
    obtain ⟨h, hp⟩ := Option.ne_none_iff_exists'.mp hp
    exact ht (hq.sound.placed t h hp)
  have hd : t ∉ q.delayed := fun hm => ht (hq.sound.dated t hm)
  have hbirth : Sound idle P (q.enrol t p i) [t, x] := by
    refine hq.sound.birth ht hact hi rfl (fun u hu => ?_) fun u hu => ?_
    · exact Function.update_of_ne hu ..
    · exact Function.update_of_ne hu ..
  refine Chosen.dispatch ⟨⟨hbirth.perm (swap_hand x t), hq.out, hq.awake, ?_, hq.new_tsk⟩, fun u hu => ?_⟩
    htx hout hd
  · exact (Function.update_of_ne htx.symm ..).trans hq.running
  · have hut : u ≠ t := by
      rintro rfl
      exact ht (hq.sound.placed u .rdy ((hq.sound.wf.place .rdy u).mp hu))
    show Function.update q.vars.prio t p u ≤ Function.update q.vars.prio t p x
    rw [Function.update_of_ne hut, Function.update_of_ne htx.symm]
    exact hq.top u hu

/-! ## The tick -/

theorem Sound.swapRobin (hq : Sound idle P q []) : Sound idle P q.swapRobin [] := by
  unfold Queues.swapRobin
  split
  · cases hl : q.queue .rdy with
    | nil => exact hq
    | cons y l =>
      have hy : q.place y = some .rdy := (hq.wf.place .rdy y).mp (hl ▸ List.mem_cons_self)
      have hlive := hq.placed y _ hy
      have hone : Sound idle P (q.edit fun v => { v with robin_task := none }) [] :=
        hq.edit ⟨rfl, rfl, rfl, rfl, rfl, rfl, rfl, rfl⟩
      have htake := (hone.pick hlive).take List.mem_cons_self
      refine (htake.put (h := .rdy) List.mem_cons_self take_place_self ?_).drop ?_
        fun _ => put_place_self _ _ _
      · show y ∉ (Queues.take _ y).delayed
        rw [take_delayed]
        exact hq.awake y hy
      · have hrests := hq.rests y hlive List.not_mem_nil
        rw [hy] at hrests
        rw [put_place_self]
        show (Queues.take _ y).vars.state y = .READY
        rw [take_vars]
        exact hrests
  · exact hq

theorem Sound.robin (hq : Sound idle P q []) : Sound idle P q.robin [] := by
  unfold Queues.robin
  split
  · exact (hq.edit ⟨rfl, rfl, rfl, rfl, rfl, rfl, rfl, rfl⟩).swapRobin
  · exact hq.swapRobin

/-- A task whose time has come is ready. -/
theorem Sound.release (hq : Sound idle P q []) (ht : Live idle q.vars t) (hd : t ∉ q.delayed) :
    Sound idle P (q.release t) [] := by
  refine ((hq.pick ht).take List.mem_cons_self).toReady take_place_self ?_
  rw [take_delayed]
  exact hd

theorem release_vars (q : Queues M S T) (t : T) : (q.release t).vars = q.vars.setState t .READY := by
  show (q.take t).vars.setState t .READY = _
  rw [take_vars]

theorem release_dates (q : Queues M S T) (t : T) : (q.release t).delay = q.delay := take_delay

theorem Sound.releases {l : List T} (hq : Sound idle P q []) (hl : ∀ t ∈ l, Live idle q.vars t ∧ t ∉ q.delayed) :
    Sound idle P (l.foldl Queues.release q) [] := by
  induction l generalizing q with
  | nil => exact hq
  | cons t l ih =>
    have ht := hl t List.mem_cons_self
    refine ih (hq.release ht.1 ht.2) fun u hu => ?_
    have hu := hl u (List.mem_cons_of_mem _ hu)
    refine ⟨?_, ?_⟩
    · rw [release_vars]
      exact hu.1
    · rw [Queues.delayed, release_dates]
      exact hu.2

omit [DecidableEq M] [DecidableEq S] [DecidableEq T] in
/-- Behind the dates that are due at `n` come the later ones. -/
theorem lt_of_mem_dropWhile {n : Nat} {l : List (T × Nat)} (hl : l.Pairwise fun a b => a.2 ≤ b.2)
    {p : T × Nat} (hp : p ∈ l.dropWhile fun p => p.2 ≤ n) : n < p.2 := by
  induction l with
  | nil => cases hp
  | cons c l ih =>
    rw [List.pairwise_cons] at hl
    by_cases hc : c.2 ≤ n
    · rw [List.dropWhile_cons_of_pos (by simpa using hc)] at hp
      exact ih hl.2 hp
    · rw [List.dropWhile_cons_of_neg (by simpa using hc)] at hp
      rcases List.mem_cons.mp hp with rfl | hp
      · omega
      · have := hl.1 p hp
        omega

omit [DecidableEq M] [DecidableEq S] [DecidableEq T] in
/-- The tasks that are due leave the delay list. -/
theorem Sound.due (hq : Sound idle P q []) : Sound idle P
    { q with now := q.now + 1, delay := q.delay.dropWhile fun p => p.2 ≤ q.now + 1 } [] := by
  have hsub : (q.delay.dropWhile fun p => p.2 ≤ q.now + 1).Sublist q.delay := List.dropWhile_sublist _
  have hdel := hsub.map Prod.fst
  exact { hq with
    wf := ⟨hq.wf.nodup, hq.wf.place, hdel.nodup hq.wf.delayed,
      fun p hp => (hq.wf.soon p (hsub.subset hp)).trans (Nat.add_le_add_right (Nat.le_succ q.now) _),
      hq.wf.fresh⟩
    dates := hq.dates.sublist hsub
    ahead := fun p hp => lt_of_mem_dropWhile hq.dates hp
    dated := fun t ht => hq.dated t (hdel.subset ht)
    awake := fun t ht hm => hq.awake t ht (hdel.subset hm) }

theorem Sound.tick (hq : Sound idle P q []) : Sound idle P q.tick [] := by
  refine hq.due.releases fun t ht => ?_
  obtain ⟨p, hp, rfl⟩ := List.mem_map.mp ht
  have hmem : p ∈ q.delay := (List.takeWhile_sublist _).subset hp
  refine ⟨hq.dated p.1 (List.mem_map_of_mem hmem), fun hm => ?_⟩
  have hsplit := List.takeWhile_append_dropWhile (p := fun p : T × Nat => decide (p.2 ≤ q.now + 1))
    (l := q.delay)
  have hnd : (q.delay.map Prod.fst).Nodup := hq.wf.delayed
  rw [← hsplit, List.map_append] at hnd
  exact (List.nodup_append.mp hnd).2.2 p.1 (List.mem_map_of_mem hp) p.1 hm rfl

/-- The running task becomes the first of the ready ones when an interrupt takes over. -/
theorem Chosen.suspend (hq : Chosen idle P q x []) : Sound idle P (q.toFront x) [] :=
  hq.sound.toFront hq.out hq.awake hq.top

theorem Chosen.systick (hq : Chosen idle P q x []) : ∃ y, Chosen idle P (q.systick x) y [] := by
  have hrobin := hq.suspend.robin.edit (f := fun v => { v with os_time := u32 (v.os_time + 1) })
    ⟨rfl, rfl, rfl, rfl, rfl, rfl, rfl, rfl⟩
  exact hrobin.tick.next

end Expedition.Rtx
