import Expedition.Rtx.Sched

/-!
# What holds of the lists between two moves

`Sound` is the invariant of the lists while the kernel works on them.  The tasks in `hand` are those
whose state need not tell where they are: the running one, and those that are being moved.

* `Live` — the tasks the kernel knows: the idle demon and the tasks in `os_active_TCB`.
* `Rests` — the state of a task tells which list it is in.
* `Sound.take`, `Sound.put`, `Sound.undelay` … — the single moves keep it.
* `Chosen` — a task has been chosen to run, and no ready task has a higher priority; `Sound.next`,
  `Chosen.dispatch`, … — the moves a kernel function ends with come to it.
-/

namespace Expedition.Rtx

open Queues

variable {M S T : Type}

/-- The tasks the kernel knows. -/
def Live (idle : T) (v : Vars M S T) (t : T) : Prop := t = idle ∨ ∃ i, v.os_active_TCB i = some t

/-- The state of a task in the list `h`, or in none. -/
def Rests : Option (Head M S) → TaskState → Prop
  | some .rdy, s => s = .READY
  | some (.mucb _), s => s = .WAIT_MUT
  | some (.scb _), s => s = .WAIT_SEM
  | none, s => s = .WAIT_DLY ∨ s = .WAIT_OR ∨ s = .WAIT_AND

/-- The priorities fall along the list. -/
abbrev Falling (prio : T → Nat) (l : List T) : Prop := l.Pairwise fun a b => prio b ≤ prio a

/-- The lists with the tasks in `hand` out of order; `P` are the tasks that interrupts have named. -/
structure Sound (idle : T) (P : T → Prop) (q : Queues M S T) (hand : List T) : Prop where
  wf : q.Wf
  falling : ∀ h, Falling q.vars.prio (q.queue h)
  dates : q.delay.Pairwise fun a b => a.2 ≤ b.2
  ahead : ∀ p ∈ q.delay, q.now < p.2
  placed : ∀ t h, q.place t = some h → Live idle q.vars t
  dated : ∀ t ∈ q.delayed, Live idle q.vars t
  awake : ∀ t, q.place t = some .rdy → t ∉ q.delayed
  inHand : ∀ t ∈ hand, Live idle q.vars t
  rests : ∀ t, Live idle q.vars t → t ∉ hand → Rests (q.place t) (q.vars.state t)
  kept : ∀ t, Live idle q.vars t → q.stale t = false
  demon : idle ∈ hand ∨ q.place idle = some .rdy
  slots : ∀ i t, q.vars.os_active_TCB i = some t →
    t ≠ idle ∧ i < os_maxtaskrun ∧ q.vars.task_id t = i + 1 ∧ q.vars.is_tcb t = true
  ids : ∀ t, q.vars.is_tcb t = true → t ≠ idle → 0 < q.vars.task_id t ∧ q.vars.task_id t ≤ os_maxtaskrun
  held : ∀ m t, q.place t = some (.mucb m) → q.vars.level m ≠ 0
  owned : ∀ m, q.vars.level m ≠ 0 → ∃ o, q.vars.owner m = some o ∧ q.place o ≠ some (.mucb m)
  spent : ∀ s t, q.place t = some (.scb s) → q.vars.tokens s = 0
  named : ∀ t, P t → Live idle q.vars t ∨ q.vars.state t = .INACTIVE

/-! ## Sorted lists -/

theorem falling_cons {prio : T → Nat} {t : T} {l : List T} :
    Falling prio (t :: l) ↔ (∀ u ∈ l, prio u ≤ prio t) ∧ Falling prio l :=
  List.pairwise_cons

theorem putPrio_cons {prio : T → Nat} {t u : T} {l : List T} : putPrio prio t (u :: l) =
    if prio t ≤ prio u then u :: putPrio prio t l else t :: u :: l := by
  split <;> rename_i hu <;> simp [putPrio, hu]

theorem falling_putPrio {prio : T → Nat} {t : T} {l : List T} (hl : Falling prio l) :
    Falling prio (putPrio prio t l) := by
  induction l with
  | nil => simp [putPrio]
  | cons u l ih =>
    rw [falling_cons] at hl
    by_cases hu : prio t ≤ prio u
    · rw [putPrio_cons, if_pos hu, falling_cons]
      refine ⟨fun v hv => ?_, ih hl.2⟩
      rcases mem_putPrio.mp hv with rfl | hv
      · exact hu
      · exact hl.1 v hv
    · rw [putPrio_cons, if_neg hu, falling_cons]
      refine ⟨fun v hv => ?_, falling_cons.mpr hl⟩
      rcases List.mem_cons.mp hv with rfl | hv
      · omega
      · have := hl.1 v hv
        omega

theorem pairwise_putDate {t : T} {d : Nat} {l : List (T × Nat)} (hl : l.Pairwise fun a b => a.2 ≤ b.2) :
    (putDate t d l).Pairwise fun a b => a.2 ≤ b.2 := by
  induction l with
  | nil => simp [putDate]
  | cons c l ih =>
    rw [List.pairwise_cons] at hl
    by_cases hc : c.2 < d
    · have hput : putDate t d (c :: l) = c :: putDate t d l := by simp [putDate, hc]
      rw [hput, List.pairwise_cons]
      refine ⟨fun v hv => ?_, ih hl.2⟩
      rcases mem_putDate.mp hv with rfl | hv
      · omega
      · exact hl.1 v hv
    · have hput : putDate t d (c :: l) = (t, d) :: c :: l := by simp [putDate, hc]
      rw [hput, List.pairwise_cons]
      refine ⟨fun v hv => ?_, List.pairwise_cons.mpr hl⟩
      rcases List.mem_cons.mp hv with rfl | hv
      · omega
      · have := hl.1 v hv
        omega

theorem nodup_putDate {t : T} {d : Nat} {l : List (T × Nat)} (hl : (l.map Prod.fst).Nodup)
    (ht : t ∉ l.map Prod.fst) : ((putDate t d l).map Prod.fst).Nodup := by
  have hp : List.Perm (putDate t d l) ((t, d) :: l) := by
    conv_rhs => rw [← List.takeWhile_append_dropWhile (p := fun p : T × Nat => p.2 < d) (l := l)]
    exact List.perm_middle
  exact (hp.map Prod.fst).nodup_iff.mpr (List.nodup_cons.mpr ⟨ht, hl⟩)

variable [DecidableEq M] [DecidableEq S] [DecidableEq T] {idle : T} {P : T → Prop} {q q' : Queues M S T}
  {hand : List T} {x t : T} {h : Head M S}

/-- What has to hold for the task `x` to go into the list `h`. -/
def Queues.Admits {M S T : Type} (q : Queues M S T) (x : T) : Head M S → Prop
  | .rdy => x ∉ q.delayed
  | .mucb m => q.vars.level m ≠ 0 ∧ q.vars.owner m ≠ some x
  | .scb s => q.vars.tokens s = 0

/-- The variables the invariant looks at are the same. -/
structure Vars.Alike (v w : Vars M S T) : Prop where
  prio : w.prio = v.prio
  state : w.state = v.state
  active : w.os_active_TCB = v.os_active_TCB
  task_id : w.task_id = v.task_id
  is_tcb : w.is_tcb = v.is_tcb
  level : w.level = v.level
  owner : w.owner = v.owner
  tokens : w.tokens = v.tokens

omit [DecidableEq M] [DecidableEq S] [DecidableEq T] in
theorem Queues.Wf.edit (hq : q.Wf) (f : Vars M S T → Vars M S T) : (q.edit f).Wf :=
  ⟨hq.nodup, hq.place, hq.delayed, hq.soon, hq.fresh⟩

theorem take_place_eq_some (ht : (q.take x).place t = some h) : t ≠ x ∧ q.place t = some h := by
  have htx : t ≠ x := by
    rintro rfl
    rw [take_place_self] at ht
    cases ht
  exact ⟨htx, (take_place_of_ne htx).symm.trans ht⟩

namespace Sound

/-! ## The single moves -/

omit [DecidableEq M] [DecidableEq S] [DecidableEq T] in
/-- Any live task may be taken in hand. -/
theorem pick (hq : Sound idle P q hand) (hx : Live idle q.vars x) : Sound idle P q (x :: hand) :=
  { hq with
    inHand := List.forall_mem_cons.mpr ⟨hx, hq.inHand⟩
    rests := fun t ht hn => hq.rests t ht fun hm => hn (List.mem_cons_of_mem _ hm)
    demon := hq.demon.imp_left (List.mem_cons_of_mem _) }

omit [DecidableEq M] [DecidableEq S] in
/-- A task whose state tells where it is need not be in hand. -/
theorem drop (hq : Sound idle P q (x :: hand)) (hr : Rests (q.place x) (q.vars.state x))
    (hi : x = idle → q.place x = some .rdy) : Sound idle P q hand := by
  refine { hq with inHand := (List.forall_mem_cons.mp hq.inHand).2, rests := ?_, demon := ?_ }
  · intro t ht hn
    by_cases htx : t = x
    · exact htx ▸ hr
    · exact hq.rests t ht (List.not_mem_cons_of_ne_of_not_mem htx hn)
  · rcases hq.demon with hm | hp
    · rcases List.mem_cons.mp hm with he | hm
      · exact .inr (he ▸ hi he.symm)
      · exact .inl hm
    · exact .inr hp

omit [DecidableEq M] [DecidableEq S] [DecidableEq T] in
theorem perm {hand' : List T} (hq : Sound idle P q hand) (hh : ∀ t, t ∈ hand' ↔ t ∈ hand) :
    Sound idle P q hand' :=
  { hq with
    inHand := fun t ht => hq.inHand t ((hh t).mp ht)
    rests := fun t ht hn => hq.rests t ht fun hm => hn ((hh t).mpr hm)
    demon := hq.demon.imp_left (hh idle).mpr }

omit [DecidableEq M] [DecidableEq S] [DecidableEq T] in
theorem edit {f : Vars M S T → Vars M S T} (hq : Sound idle P q hand) (hf : q.vars.Alike (f q.vars)) :
    Sound idle P (q.edit f) hand := by
  have hlive : ∀ t, Live idle (f q.vars) t ↔ Live idle q.vars t := fun t => by rw [Live, hf.active, Live]
  refine ⟨hq.wf.edit f, ?_, ?_, ?_, ?_, ?_, ?_, ?_, ?_, ?_, ?_, ?_, ?_, ?_, ?_, ?_, ?_⟩
  all_goals simp only [Queues.edit, hf.prio, hf.state, hf.active, hf.task_id, hf.is_tcb, hf.level,
    hf.owner, hf.tokens, hlive]
  · exact hq.falling
  · exact hq.dates
  · exact hq.ahead
  · exact hq.placed
  · exact hq.dated
  · exact hq.awake
  · exact hq.inHand
  · exact hq.rests
  · exact hq.kept
  · exact hq.demon
  · exact hq.slots
  · exact hq.ids
  · exact hq.held
  · exact hq.owned
  · exact hq.spent
  · exact hq.named

/-- Take a task out of its list. -/
theorem take (hq : Sound idle P q hand) (hx : x ∈ hand) : Sound idle P (q.take x) hand where
  wf := hq.wf.take
  falling h := by
    rw [hq.wf.take_queue, take_vars]
    exact (hq.falling h).sublist List.erase_sublist
  dates := by rw [take_delay]; exact hq.dates
  ahead := by rw [take_delay, take_now]; exact hq.ahead
  placed t h ht := by rw [take_vars]; exact hq.placed t h (take_place_eq_some ht).2
  dated := by rw [Queues.delayed, take_delay, take_vars]; exact hq.dated
  awake t ht := by rw [Queues.delayed, take_delay]; exact hq.awake t (take_place_eq_some ht).2
  inHand := by rw [take_vars]; exact hq.inHand
  rests t ht hn := by
    rw [take_vars] at ht
    have htx : t ≠ x := fun he => hn (he ▸ hx)
    rw [take_vars, take_place_of_ne htx]
    exact hq.rests t ht hn
  kept := by rw [take_vars, take_stale]; exact hq.kept
  demon := by
    by_cases hi : idle = x
    · exact .inl (hi ▸ hx)
    · rw [take_place_of_ne hi]
      exact hq.demon
  slots := by rw [take_vars]; exact hq.slots
  ids := by rw [take_vars]; exact hq.ids
  held m t ht := by rw [take_vars]; exact hq.held m t (take_place_eq_some ht).2
  owned m := by
    rw [take_vars]
    intro hl
    obtain ⟨o, ho, hp⟩ := hq.owned m hl
    exact ⟨o, ho, fun he => hp (take_place_eq_some he).2⟩
  spent s t ht := by rw [take_vars]; exact hq.spent s t (take_place_eq_some ht).2
  named := by rw [take_vars]; exact hq.named

/-- Put a task into a list. -/
theorem enlist {l : List T} (hq : Sound idle P q hand) (hx : x ∈ hand) (hout : q.place x = none)
    (ha : q.Admits x h) (hnd : l.Nodup) (hmem : ∀ u, u ∈ l ↔ u = x ∨ u ∈ q.queue h)
    (hl : Falling q.vars.prio l) : Sound idle P (q.enlist h x l) hand := by
  have hself : (q.enlist h x l).place x = some h := Function.update_self ..
  have hother : ∀ t, t ≠ x → (q.enlist h x l).place t = q.place t := fun t ht => Function.update_of_ne ht ..
  have hcases : ∀ t h', (q.enlist h x l).place t = some h' → t = x ∧ h' = h ∨ q.place t = some h' := by
    intro t h' ht
    by_cases htx : t = x
    · subst htx
      rw [hself] at ht
      exact .inl ⟨rfl, (Option.some.inj ht).symm⟩
    · exact .inr (hother t htx ▸ ht)
  refine { hq with
    wf := hq.wf.enlist hout hnd hmem, falling := ?_, placed := ?_, awake := ?_, rests := ?_,
    kept := ?_, demon := ?_, held := ?_, owned := ?_, spent := ?_ }
  · intro h'
    by_cases hh : h' = h
    · subst hh
      show Falling _ (Function.update q.queue h' l h')
      rw [Function.update_self]
      exact hl
    · show Falling _ (Function.update q.queue h l h')
      rw [Function.update_of_ne hh]
      exact hq.falling h'
  · intro t h' ht
    rcases hcases t h' ht with ⟨rfl, -⟩ | ht
    · exact hq.inHand t hx
    · exact hq.placed t h' ht
  · intro t ht
    rcases hcases t .rdy ht with ⟨rfl, rfl⟩ | ht
    · exact ha
    · exact hq.awake t ht
  · intro t ht hn
    rw [hother t fun he => hn (he ▸ hx)]
    exact hq.rests t ht hn
  · intro t ht
    by_cases htx : t = x
    · exact htx ▸ Function.update_self ..
    · exact (Function.update_of_ne htx ..).trans (hq.kept t ht)
  · by_cases hi : idle = x
    · exact .inl (hi ▸ hx)
    · rw [hother idle hi]
      exact hq.demon
  · intro m t ht
    rcases hcases t (.mucb m) ht with ⟨-, rfl⟩ | ht
    · exact ha.1
    · exact hq.held m t ht
  · intro m hm
    obtain ⟨o, ho, hp⟩ := hq.owned m hm
    refine ⟨o, ho, fun he => ?_⟩
    rcases hcases o (.mucb m) he with ⟨rfl, rfl⟩ | he
    · exact ha.2 ho
    · exact hp he
  · intro s t ht
    rcases hcases t (.scb s) ht with ⟨-, rfl⟩ | ht
    · exact ha
    · exact hq.spent s t ht

theorem put (hq : Sound idle P q hand) (hx : x ∈ hand) (hout : q.place x = none) (ha : q.Admits x h) :
    Sound idle P (q.put h x) hand :=
  hq.enlist hx hout ha (nodup_putPrio (hq.wf.nodup h) (hq.wf.out hout h)) (fun _ => mem_putPrio)
    (falling_putPrio (hq.falling h))

/-- A task no ready task is above goes to the front. -/
theorem putFirst (hq : Sound idle P q hand) (hx : x ∈ hand) (hout : q.place x = none)
    (ha : x ∉ q.delayed) (htop : ∀ t ∈ q.queue .rdy, q.vars.prio t ≤ q.vars.prio x) :
    Sound idle P (q.enlist .rdy x (x :: q.queue .rdy)) hand :=
  hq.enlist hx hout ha (List.nodup_cons.mpr ⟨hq.wf.out hout .rdy, hq.wf.nodup .rdy⟩)
    (fun _ => List.mem_cons) (falling_cons.mpr ⟨htop, hq.falling .rdy⟩)

omit [DecidableEq M] [DecidableEq S] in
/-- The state of a task in hand is free. -/
theorem setState (hq : Sound idle P q hand) (hx : x ∈ hand) (s : TaskState) :
    Sound idle P (q.edit fun v => v.setState x s) hand := by
  refine { hq with wf := hq.wf.edit _, rests := ?_, named := ?_ }
  · intro t ht hn
    have htx : t ≠ x := fun he => hn (he ▸ hx)
    show Rests _ (Function.update q.vars.state x s t)
    rw [Function.update_of_ne htx]
    exact hq.rests t ht hn
  · intro t ht
    by_cases htx : t = x
    · exact .inl (hq.inHand t (htx ▸ hx))
    · show _ ∨ Function.update q.vars.state x s t = _
      rw [Function.update_of_ne htx]
      exact hq.named t ht

omit [DecidableEq M] [DecidableEq S] in
/-- The priority of a task in no list is free. -/
theorem setPrio (hq : Sound idle P q hand) (hout : q.place x = none) (p : Nat) :
    Sound idle P (q.edit fun v => v.setPrio x p) hand := by
  refine { hq with wf := hq.wf.edit _, falling := fun h => ?_ }
  have hne : ∀ t ∈ q.queue h, t ≠ x := fun t ht he => hq.wf.out hout h (he ▸ ht)
  refine (hq.falling h).imp_of_mem fun {a b} ha hb hab => ?_
  show Function.update q.vars.prio x p b ≤ Function.update q.vars.prio x p a
  rw [Function.update_of_ne (hne a ha), Function.update_of_ne (hne b hb)]
  exact hab

omit [DecidableEq M] [DecidableEq S] in
theorem undelay (hq : Sound idle P q hand) (x : T) : Sound idle P (q.undelay x) hand := by
  have hsub : (q.undelay x).delay.Sublist q.delay := List.filter_sublist
  have hdel : (q.undelay x).delayed.Sublist q.delayed := hsub.map Prod.fst
  refine { hq with
    wf := ⟨hq.wf.nodup, hq.wf.place, hdel.nodup hq.wf.delayed, fun p hp => hq.wf.soon p (hsub.subset hp),
      hq.wf.fresh⟩
    dates := hq.dates.sublist hsub
    ahead := fun p hp => hq.ahead p (hsub.subset hp)
    dated := fun t ht => hq.dated t (hdel.subset ht)
    awake := fun t ht hm => hq.awake t ht (hdel.subset hm) }

omit [DecidableEq M] [DecidableEq S] [DecidableEq T] in
/-- Delay a task, or let it wait for ever. -/
theorem delayFor {n : Nat} (hq : Sound idle P q hand) (hx : x ∈ hand) (hd : x ∉ q.delayed)
    (hr : q.place x ≠ some .rdy) (hn : n ≠ 0) : Sound idle P (q.delayFor x n) hand := by
  unfold Queues.delayFor
  split
  · refine { hq with
      wf := ⟨hq.wf.nodup, hq.wf.place, nodup_putDate hq.wf.delayed hd, ?_, hq.wf.fresh⟩
      dates := pairwise_putDate hq.dates
      ahead := ?_
      dated := ?_
      awake := ?_ }
    · intro p hp
      rcases mem_putDate.mp hp with rfl | hp
      · show q.now + n ≤ q.now + 65534
        omega
      · exact hq.wf.soon p hp
    · intro p hp
      rcases mem_putDate.mp hp with rfl | hp
      · show q.now < q.now + n
        omega
      · exact hq.ahead p hp
    · intro t ht
      obtain ⟨p, hp, rfl⟩ := List.mem_map.mp ht
      rcases mem_putDate.mp hp with rfl | hp
      · exact hq.inHand x hx
      · exact hq.dated p.1 (List.mem_map_of_mem hp)
    · intro t ht hm
      obtain ⟨p, hp, rfl⟩ := List.mem_map.mp hm
      rcases mem_putDate.mp hp with rfl | hp
      · exact hr ht
      · exact hq.awake p.1 ht (List.mem_map_of_mem hp)
  · exact hq

omit [DecidableEq S] [DecidableEq T] in
/-- A mutex is given to a task that does not wait for it. -/
theorem setMut {m : M} {o : T} {n p : Nat} (hq : Sound idle P q hand) (hn : n ≠ 0)
    (ho : q.place o ≠ some (.mucb m)) : Sound idle P (q.edit fun v => v.setMut m n (some o) p) hand := by
  refine { hq with wf := hq.wf.edit _, held := fun m' t ht => ?_, owned := fun m' hl => ?_ }
  · show Function.update q.vars.level m n m' ≠ 0
    by_cases hm : m' = m
    · rw [hm, Function.update_self]
      exact hn
    · rw [Function.update_of_ne hm]
      exact hq.held m' t ht
  · show ∃ o', Function.update q.vars.owner m (some o) m' = some o' ∧ q.place o' ≠ some (.mucb m')
    by_cases hm : m' = m
    · rw [hm, Function.update_self]
      exact ⟨o, rfl, ho⟩
    · rw [Function.update_of_ne hm]
      exact hq.owned m' ((Function.update_of_ne hm n q.vars.level) ▸ hl)

omit [DecidableEq S] [DecidableEq T] in
/-- A mutex is locked once more, or unlocked. -/
theorem setLevel {m : M} {n : Nat} (hq : Sound idle P q hand) (hl : n ≠ 0 → q.vars.level m ≠ 0)
    (he : n = 0 → q.queue (.mucb m) = []) : Sound idle P (q.edit fun v => v.setLevel m n) hand := by
  refine { hq with wf := hq.wf.edit _, held := fun m' t ht => ?_, owned := fun m' hl' => ?_ }
  · show Function.update q.vars.level m n m' ≠ 0
    by_cases hm : m' = m
    · rw [hm, Function.update_self]
      intro hn
      have hmem := (hq.wf.place (.mucb m) t).mpr (hm ▸ ht)
      rw [he hn] at hmem
      cases hmem
    · rw [Function.update_of_ne hm]
      exact hq.held m' t ht
  · change Function.update q.vars.level m n m' ≠ 0 at hl'
    by_cases hm : m' = m
    · rw [hm, Function.update_self] at hl'
      exact hm ▸ hq.owned m (hl hl')
    · rw [Function.update_of_ne hm] at hl'
      exact hq.owned m' hl'

omit [DecidableEq M] [DecidableEq T] in
/-- Where no task waits for tokens, their number is free. -/
theorem setTokens {s : S} (hq : Sound idle P q hand) (he : q.queue (.scb s) = []) (n : Nat) :
    Sound idle P (q.edit fun v => v.setTokens s n) hand := by
  refine { hq with wf := hq.wf.edit _, spent := fun s' t ht => ?_ }
  have hs : s' ≠ s := by
    rintro rfl
    have hmem := (hq.wf.place (.scb s') t).mpr ht
    rw [he] at hmem
    cases hmem
  show Function.update q.vars.tokens s n s' = 0
  rw [Function.update_of_ne hs]
  exact hq.spent s' t ht

omit [DecidableEq M] [DecidableEq S] in
/-- A task that is in no list leaves the table. -/
theorem bury {v : Vars M S T} {z : T → Bool} {i : Nat} (hq : Sound idle P q (x :: hand)) (hx : x ∉ hand)
    (hout : q.place x = none) (hd : x ∉ q.delayed) (hi : x ≠ idle) (hact : q.vars.os_active_TCB i = some x)
    (hst : ∀ t, t ≠ x → z t = q.stale t)
    (hv : v = { q.vars with
      os_active_TCB := Function.update q.vars.os_active_TCB i none
      state := v.state
      run := v.run })
    (hstate : ∀ t, t ≠ x → v.state t = q.vars.state t) (hP : P x → v.state x = .INACTIVE) :
    Sound idle P { q with stale := z, vars := v } hand := by
  have hslot : ∀ j t, Function.update q.vars.os_active_TCB i none j = some t →
      q.vars.os_active_TCB j = some t ∧ t ≠ x := by
    intro j t hj
    by_cases hji : j = i
    · rw [hji, Function.update_self] at hj
      cases hj
    · rw [Function.update_of_ne hji] at hj
      refine ⟨hj, fun he => hji ?_⟩
      have h₁ := (hq.slots j t hj).2.2.1
      have h₂ := (hq.slots i x hact).2.2.1
      rw [he, h₂] at h₁
      omega
  have hlive : ∀ t, Live idle v t → Live idle q.vars t ∧ t ≠ x := by
    rintro t (rfl | ⟨j, hj⟩)
    · exact ⟨.inl rfl, hi.symm⟩
    · rw [hv] at hj
      obtain ⟨hj, hne⟩ := hslot j t hj
      exact ⟨.inr ⟨j, hj⟩, hne⟩
  have hlive' : ∀ t, t ≠ x → Live idle q.vars t → Live idle v t := by
    rintro t ht (rfl | ⟨j, hj⟩)
    · exact .inl rfl
    · refine .inr ⟨j, ?_⟩
      have hji : j ≠ i := by
        rintro rfl
        exact ht (Option.some.inj (hj.symm.trans hact))
      rw [hv]
      exact (Function.update_of_ne hji ..).trans hj
  have hne : ∀ t h, q.place t = some h → t ≠ x := by
    rintro t h ht rfl
    rw [hout] at ht
    cases ht
  refine ⟨⟨hq.wf.nodup, hq.wf.place, hq.wf.delayed, hq.wf.soon, ?_⟩, ?_, hq.dates, hq.ahead, ?_, ?_,
    hq.awake, ?_, ?_, ?_, ?_, ?_, ?_, ?_, ?_, ?_, ?_⟩
  · intro t h ht
    exact (hst t (hne t h ht)).trans (hq.wf.fresh t h ht)
  · rw [hv]
    exact hq.falling
  · intro t h ht
    exact hlive' t (hne t h ht) (hq.placed t h ht)
  · intro t ht
    exact hlive' t (fun he => hd (he ▸ ht)) (hq.dated t ht)
  · intro t ht
    exact hlive' t (fun he => hx (he ▸ ht)) (hq.inHand t (List.mem_cons_of_mem _ ht))
  · intro t ht hn
    obtain ⟨hl, hne⟩ := hlive t ht
    show Rests (q.place t) (v.state t)
    rw [hstate t hne]
    exact hq.rests t hl (List.not_mem_cons_of_ne_of_not_mem hne hn)
  · intro t ht
    obtain ⟨hl, hne⟩ := hlive t ht
    exact (hst t hne).trans (hq.kept t hl)
  · rcases hq.demon with hm | hp
    · exact .inl ((List.mem_cons.mp hm).resolve_left hi.symm)
    · exact .inr hp
  · intro j t hj
    rw [hv] at hj ⊢
    exact hq.slots j t (hslot j t hj).1
  · rw [hv]
    exact hq.ids
  · rw [hv]
    exact hq.held
  · rw [hv]
    exact hq.owned
  · rw [hv]
    exact hq.spent
  · intro t ht
    by_cases htx : t = x
    · exact .inr (htx ▸ hP (htx ▸ ht))
    · rcases hq.named t ht with hl | hs
      · exact .inl (hlive' t htx hl)
      · exact .inr ((hstate t htx).trans hs)

omit [DecidableEq M] [DecidableEq S] in
/-- A task that is not live is set up and gets a free slot. -/
theorem birth {v : Vars M S T} {i : Nat} (hq : Sound idle P q hand) (hx : ¬ Live idle q.vars x)
    (hact : q.vars.os_active_TCB i = none) (hi : i < os_maxtaskrun)
    (hv : v = { q.vars with
      os_active_TCB := Function.update q.vars.os_active_TCB i (some x)
      task_id := Function.update q.vars.task_id x (i + 1)
      is_tcb := Function.update q.vars.is_tcb x true
      prio := v.prio
      state := v.state
      events := v.events
      waits := v.waits
      interval_time := v.interval_time })
    (hprio : ∀ t, t ≠ x → v.prio t = q.vars.prio t) (hstate : ∀ t, t ≠ x → v.state t = q.vars.state t) :
    Sound idle P { q with stale := Function.update q.stale x false, vars := v } (x :: hand) := by
  have hxi : x ≠ idle := fun he => hx (.inl he)
  have hlive : ∀ t, Live idle q.vars t → Live idle v t := by
    rintro t (rfl | ⟨j, hj⟩)
    · exact .inl rfl
    · refine .inr ⟨j, ?_⟩
      have hji : j ≠ i := by
        rintro rfl
        rw [hact] at hj
        cases hj
      rw [hv]
      exact (Function.update_of_ne hji ..).trans hj
  have hlive' : ∀ t, t ≠ x → Live idle v t → Live idle q.vars t := by
    rintro t ht (rfl | ⟨j, hj⟩)
    · exact .inl rfl
    · rw [hv] at hj
      by_cases hji : j = i
      · change Function.update q.vars.os_active_TCB i (some x) j = some t at hj
        rw [hji, Function.update_self] at hj
        exact absurd (Option.some.inj hj).symm ht
      · exact .inr ⟨j, (Function.update_of_ne hji ..).symm.trans hj⟩
  have hself : Live idle v x := .inr ⟨i, by rw [hv]; exact Function.update_self ..⟩
  have hout : ∀ t h, q.place t = some h → t ≠ x := by
    rintro t h ht rfl
    exact hx (hq.placed t h ht)
  refine ⟨(hq.wf.stale ?_ false).edit fun _ => v, ?_, hq.dates, hq.ahead, fun t h ht => hlive t (hq.placed t h ht),
    fun t ht => hlive t (hq.dated t ht), hq.awake, ?_, ?_, ?_, ?_, ?_, ?_, ?_, ?_, ?_, ?_⟩
  · by_contra hp
    obtain ⟨h, hp⟩ := Option.ne_none_iff_exists'.mp hp
    exact hout x h hp rfl
  · intro h
    refine (hq.falling h).imp_of_mem fun {a b} ha hb hab => ?_
    have ha' := hout a h ((hq.wf.place h a).mp ha)
    have hb' := hout b h ((hq.wf.place h b).mp hb)
    show v.prio b ≤ v.prio a
    rw [hprio a ha', hprio b hb']
    exact hab
  · intro t ht
    rcases List.mem_cons.mp ht with rfl | ht
    · exact hself
    · exact hlive t (hq.inHand t ht)
  · intro t ht hn
    rw [List.mem_cons, not_or] at hn
    show Rests (q.place t) (v.state t)
    rw [hstate t hn.1]
    exact hq.rests t (hlive' t hn.1 ht) hn.2
  · intro t ht
    by_cases htx : t = x
    · exact htx ▸ Function.update_self ..
    · exact (Function.update_of_ne htx ..).trans (hq.kept t (hlive' t htx ht))
  · exact hq.demon.imp_left (List.mem_cons_of_mem _)
  · intro j t hj
    rw [hv] at hj ⊢
    by_cases hji : j = i
    · subst hji
      change Function.update q.vars.os_active_TCB j (some x) j = some t at hj
      rw [Function.update_self] at hj
      obtain rfl := Option.some.inj hj
      exact ⟨hxi, hi, Function.update_self .., Function.update_self ..⟩
    · have hj := (Function.update_of_ne hji ..).symm.trans hj
      have htx : t ≠ x := fun he => hx (.inr ⟨j, he ▸ hj⟩)
      obtain ⟨h₁, h₂, h₃, h₄⟩ := hq.slots j t hj
      exact ⟨h₁, h₂, (Function.update_of_ne htx ..).trans h₃, (Function.update_of_ne htx ..).trans h₄⟩
  · intro t ht hti
    rw [hv] at ht ⊢
    by_cases htx : t = x
    · subst htx
      show 0 < Function.update q.vars.task_id t (i + 1) t ∧ Function.update q.vars.task_id t (i + 1) t ≤ _
      rw [Function.update_self]
      omega
    · show 0 < Function.update q.vars.task_id x (i + 1) t ∧ Function.update q.vars.task_id x (i + 1) t ≤ _
      rw [Function.update_of_ne htx]
      exact hq.ids t ((Function.update_of_ne htx ..).symm.trans ht) hti
  · rw [hv]
    exact hq.held
  · rw [hv]
    exact hq.owned
  · rw [hv]
    exact hq.spent
  · intro t ht
    by_cases htx : t = x
    · exact .inl (htx ▸ hself)
    · exact (hq.named t ht).imp (hlive t) fun hs => (hstate t htx).trans hs

end Sound

/-! ## The moves of a kernel function -/

theorem edit_take (q : Queues M S T) (f : Vars M S T → Vars M S T) (x : T) :
    (q.edit f).take x = (q.take x).edit f := by
  unfold Queues.take Queues.edit
  cases q.place x <;> rfl

namespace Sound

/-- A task in hand becomes ready. -/
theorem toReady (hq : Sound idle P q (x :: hand)) (hout : q.place x = none) (hd : x ∉ q.delayed) :
    Sound idle P (q.toReady x) hand := by
  have hput := hq.put (h := .rdy) List.mem_cons_self hout hd
  have hplace : (q.toReady x).place x = some .rdy := put_place_self q .rdy x
  refine (hput.setState List.mem_cons_self .READY).drop ?_ fun _ => hplace
  show Rests ((q.toReady x).place x) (Function.update q.vars.state x .READY x)
  rw [hplace, Function.update_self]
  rfl

/-- A task in hand becomes the first of the ready ones. -/
theorem toFront (hq : Sound idle P q (x :: hand)) (hout : q.place x = none) (hd : x ∉ q.delayed)
    (htop : ∀ t ∈ q.queue .rdy, q.vars.prio t ≤ q.vars.prio x) : Sound idle P (q.toFront x) hand := by
  have hput := hq.putFirst List.mem_cons_self hout hd htop
  have hplace : (q.toFront x).place x = some .rdy := Function.update_self ..
  refine (hput.setState List.mem_cons_self .READY).drop ?_ fun _ => hplace
  show Rests ((q.toFront x).place x) (Function.update q.vars.state x .READY x)
  rw [hplace, Function.update_self]
  rfl

omit [DecidableEq M] [DecidableEq S] in
/-- A task in hand goes to sleep where it is. -/
theorem sleep {n : Nat} {s : TaskState} (hq : Sound idle P q (x :: hand)) (hd : x ∉ q.delayed)
    (hi : x ≠ idle) (hr : Rests (q.place x) s) (hs : s ≠ .READY) (hn : n ≠ 0) :
    Sound idle P ((q.delayFor x n).edit fun v => v.setState x s) hand := by
  have hplace : (q.delayFor x n).place = q.place := by
    unfold Queues.delayFor
    split <;> rfl
  have hrdy : q.place x ≠ some .rdy := by
    intro hp
    rw [hp] at hr
    exact hs hr
  refine ((hq.delayFor List.mem_cons_self hd hrdy hn).setState List.mem_cons_self s).drop ?_
    fun he => absurd he hi
  show Rests ((q.delayFor x n).place x) (Function.update (q.delayFor x n).vars.state x s x)
  rw [hplace, Function.update_self]
  exact hr

/-- A live task is sorted in anew with the priority `p`. -/
theorem resort (hq : Sound idle P q hand) (hx : Live idle q.vars x) (hh : x ∉ hand) (p : Nat) :
    Sound idle P ((q.edit fun v => v.setPrio x p).resort x) hand := by
  unfold Queues.resort
  cases hp : q.place x with
  | none =>
    simp only [edit_place, hp]
    exact hq.setPrio hp p
  | some h =>
    simp only [edit_place, hp, edit_take]
    have htake := (hq.pick hx).take List.mem_cons_self
    have hadm : ((q.take x).edit fun v => v.setPrio x p).Admits x h := by
      unfold Queues.Admits
      simp only [edit_vars, take_vars]
      cases h with
      | rdy =>
        show x ∉ (q.take x).delay.map Prod.fst
        rw [take_delay]
        exact hq.awake x hp
      | mucb m =>
        have hl := hq.held m x hp
        obtain ⟨o, ho, hne⟩ := hq.owned m hl
        refine ⟨hl, fun he => hne ?_⟩
        obtain rfl := Option.some.inj (ho.symm.trans he)
        exact hp
      | scb s => exact hq.spent s x hp
    refine ((htake.setPrio take_place_self p).put List.mem_cons_self take_place_self hadm).drop ?_ ?_
    · rw [put_place_self]
      show Rests (some h) ((q.take x).vars.state x)
      rw [take_vars, ← hp]
      exact hq.rests x hx hh
    · intro hi
      rw [put_place_self, ← hp, hi]
      exact hq.demon.resolve_left fun hm => hh (hi ▸ hm)

end Sound

/-- The task `x` is the one chosen to run, with the tasks in `l` in hand; nothing is said of the other
priorities. -/
structure Sole (idle : T) (P : T → Prop) (q : Queues M S T) (x : T) (l : List T) : Prop where
  sound : Sound idle P q (x :: l)
  out : q.place x = none
  awake : x ∉ q.delayed
  running : q.vars.state x = .RUNNING
  new_tsk : q.vars.new_tsk = some x

/-- No ready task is above the task chosen. -/
structure Chosen (idle : T) (P : T → Prop) (q : Queues M S T) (x : T) (l : List T) : Prop
    extends Sole idle P q x l where
  top : ∀ t ∈ q.queue .rdy, q.vars.prio t ≤ q.vars.prio x

omit [DecidableEq M] [DecidableEq S] in
/-- A task that is out of all lists is switched to. -/
theorem Sound.switch (hq : Sound idle P q [x]) (hout : q.place x = none) (hd : x ∉ q.delayed)
    (htop : ∀ t ∈ q.queue .rdy, q.vars.prio t ≤ q.vars.prio x) : Chosen idle P (q.switch x) x [] where
  sound := by
    have hst := hq.setState List.mem_cons_self .RUNNING
    exact hst.edit (f := fun v => { v with new_tsk := some x }) ⟨rfl, rfl, rfl, rfl, rfl, rfl, rfl, rfl⟩
  out := hout
  awake := hd
  running := Function.update_self ..
  new_tsk := rfl
  top := htop

/-- With all tasks in their lists, the first ready one is chosen. -/
theorem Sound.next (hq : Sound idle P q []) : ∃ x, Chosen idle P q.next x [] := by
  have hidle : idle ∈ q.queue .rdy := by
    refine (hq.wf.place .rdy idle).mpr (hq.demon.resolve_left ?_)
    exact List.not_mem_nil
  obtain ⟨x, l, hx⟩ := List.exists_cons_of_ne_nil (List.ne_nil_of_mem hidle)
  have hplace : q.place x = some .rdy := (hq.wf.place .rdy x).mp (hx ▸ List.mem_cons_self)
  have hrest : (q.take x).queue .rdy = l := by rw [hq.wf.take_queue, hx, List.erase_cons_head]
  refine ⟨x, ?_⟩
  rw [next_eq hx]
  refine ((hq.pick (hq.placed x _ hplace)).take List.mem_cons_self).switch take_place_self ?_ ?_
  · rw [Queues.delayed, take_delay]
    exact hq.awake x hplace
  · rw [hrest, take_vars]
    exact (falling_cons.mp (hx ▸ hq.falling .rdy)).1

variable {l : List T}

/-- The task `t`, out of all lists, becomes ready, or goes on in the place of the running one. -/
theorem Chosen.dispatch (hq : Chosen idle P q x [t]) (htx : t ≠ x) (hout : q.place t = none)
    (hd : t ∉ q.delayed) : ∃ y, Chosen idle P (q.dispatch x t) y [] := by
  unfold Queues.dispatch
  by_cases hp : q.vars.prio t > q.vars.prio x
  · rw [if_pos hp]
    refine ⟨t, (hq.sound.toFront hq.out hq.awake hq.top).switch ?_ hd fun u hu => ?_⟩
    · exact (Function.update_of_ne htx ..).trans hout
    · rw [toFront_queue] at hu
      show q.vars.prio u ≤ q.vars.prio t
      rcases List.mem_cons.mp hu with rfl | hu
      · exact Nat.le_of_lt hp
      · exact (hq.top u hu).trans (Nat.le_of_lt hp)
  · rw [if_neg hp]
    have hperm : ∀ u, u ∈ [t, x] ↔ u ∈ [x, t] := fun u => by simp only [List.mem_cons]; tauto
    refine ⟨x, ⟨(hq.sound.perm hperm).toReady hout hd, ?_, hq.awake, ?_, hq.new_tsk⟩, fun u hu => ?_⟩
    · exact (Function.update_of_ne htx.symm ..).trans hq.out
    · exact (Function.update_of_ne htx.symm ..).trans hq.running
    · rw [toReady_queue] at hu
      show q.vars.prio u ≤ q.vars.prio x
      rcases mem_putPrio.mp hu with rfl | hu
      · exact Nat.le_of_not_gt hp
      · exact hq.top u hu

/-- The running task is blocked where it is. -/
theorem Sound.block {n : Nat} {s : TaskState} (hq : Sound idle P q [x]) (hd : x ∉ q.delayed)
    (hi : x ≠ idle) (hr : Rests (q.place x) s) (hs : s ≠ .READY) (hn : n ≠ 0) :
    ∃ y, Chosen idle P (q.block x n s) y [] :=
  (hq.sleep hd hi hr hs hn).next

/-- The running task lets another of its priority go first. -/
theorem Chosen.pass (hq : Chosen idle P q x []) : ∃ y, Chosen idle P (q.pass x) y [] := by
  unfold Queues.pass
  cases hl : q.queue .rdy with
  | nil => exact ⟨x, hq⟩
  | cons y l =>
    simp only
    by_cases hp : q.vars.prio y = q.vars.prio x
    · rw [if_pos hp]
      have hplace : q.place y = some .rdy := (hq.sound.wf.place .rdy y).mp (hl ▸ List.mem_cons_self)
      have hxy : x ≠ y := by
        rintro rfl
        rw [hq.out] at hplace
        cases hplace
      have hrest : (q.take y).queue .rdy = l := by rw [hq.sound.wf.take_queue, hl, List.erase_cons_head]
      have hd : (q.take y).delayed = q.delayed := by rw [Queues.delayed, take_delay]
      have hperm : ∀ u, u ∈ [x, y] ↔ u ∈ [y, x] := fun u => by simp only [List.mem_cons]; tauto
      have htake := ((hq.sound.pick (hq.sound.placed y _ hplace)).take List.mem_cons_self).perm hperm
      have hready := htake.toReady (by rw [take_place_of_ne hxy, hq.out]) (by rw [hd]; exact hq.awake)
      refine ⟨y, hready.switch ?_ ?_ fun u hu => ?_⟩
      · exact (Function.update_of_ne hxy.symm ..).trans take_place_self
      · show y ∉ (q.take y).delayed
        rw [hd]
        exact hq.sound.awake y hplace
      · rw [toReady_queue, hrest] at hu
        show (q.take y).vars.prio u ≤ (q.take y).vars.prio y
        rw [take_vars]
        rcases mem_putPrio.mp hu with rfl | hu
        · exact hp.ge
        · exact (falling_cons.mp (hl ▸ hq.sound.falling .rdy)).1 u hu
    · rw [if_neg hp]
      exact ⟨x, hq⟩

/-- The running task goes on unless a ready task is above it. -/
theorem Sole.yieldTo (hq : Sole idle P q x []) :
    ∃ y, Chosen idle P (q.yieldTo x (q.vars.prio x)) y [] := by
  unfold Queues.yieldTo
  cases hl : q.queue .rdy with
  | nil => exact ⟨x, hq, by simp [hl]⟩
  | cons y l =>
    simp only
    by_cases hp : q.vars.prio y > q.vars.prio x
    · rw [if_pos hp]
      exact (hq.sound.toReady hq.out hq.awake).next
    · rw [if_neg hp]
      refine ⟨x, hq, fun u hu => ?_⟩
      rw [hl] at hu
      rcases List.mem_cons.mp hu with rfl | hu
      · exact Nat.le_of_not_gt hp
      · exact ((falling_cons.mp (hl ▸ hq.sound.falling .rdy)).1 u hu).trans (Nat.le_of_not_gt hp)

end Expedition.Rtx
