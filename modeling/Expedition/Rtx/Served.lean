import Expedition.Rtx.Wakeups

/-!
# Who is served

A task that waits for a mutex or a semaphore waits behind those of its priority, and what is released goes to
the first that waits.

* `Act.Hands` — the actions that hand something to the tasks in a list.
* `Act.Wakes.first` — the task that is woken is the first of the list.
* `Service.joins` — a call that waits puts its task into the list by its priority.
* `joins_behind` — **a task waits behind those of its priority or above.**
* `highest_served` — **a task that is served is first in its list, and no task in the list is above it.**
-/

namespace Expedition.Rtx

open Queues Linked

variable {M S T : Type} [DecidableEq M] [DecidableEq S] [DecidableEq T] {q : Queues M S T}
  {idle x t : T} {k : Head M S} {a : Act M S T} {popping : Option Nat} {P : T → Prop}

/-! ## Tasks that wait -/

omit [DecidableEq M] [DecidableEq S] [DecidableEq T] in
/-- A task that waits is neither ready nor running. -/
theorem InOrder.waits_out (hq : InOrder idle q popping) (hw : (q.vars.state t).Waits) :
    (popping = none → q.vars.run ≠ some t) ∧ q.place t ≠ some .rdy := by
  have hplaced : ∀ {P : T → Prop} {hand : List T}, Sound idle P q hand →
      (∀ u ∈ hand, q.vars.state u = .RUNNING) → q.place t ≠ some .rdy := by
    intro P hand hs hhand hp
    have hr := hs.state_of_place hp fun hm => hw.ne_running (hhand t hm)
    exact (show q.vars.up t from .inl hr).not_waits hw
  cases popping with
  | none =>
    obtain ⟨⟨run, hchosen, hr⟩, -⟩ := hq
    refine ⟨fun _ he => ?_, hplaced hchosen.sound fun u hu => List.mem_singleton.mp hu ▸ hchosen.running⟩
    obtain rfl := Option.some.inj (hr.symm.trans he)
    exact hw.ne_running hchosen.running
  | some idx => exact ⟨nofun, hplaced hq.1 fun u hu => absurd hu List.not_mem_nil⟩

omit [DecidableEq M] [DecidableEq S] [DecidableEq T] in
theorem InOrder.wf (hq : InOrder idle q popping) : q.Wf := by
  cases popping with
  | none =>
    obtain ⟨⟨_, hchosen, -⟩, -⟩ := hq
    exact hchosen.sound.wf
  | some idx => exact hq.1.wf

omit [DecidableEq M] [DecidableEq S] [DecidableEq T] in
/-- The first task of a list is in it. -/
theorem InOrder.first {h : Head M S} {l : List T} (hq : InOrder idle q popping) (hl : q.queue h = t :: l) :
    q.place t = some h :=
  (hq.wf.place h t).mp (hl ▸ List.mem_cons_self)

/-! ## The first of a list -/

/-- The action hands something to the tasks that wait in the list `k`. -/
def Act.Hands (k : Head M S) (v : Vars M S T) : Act M S T → Option Nat → Prop
  | .service (.mutexRelease m), _ => .mucb m = k
  | .service (.semaphoreRelease s), _ => .scb s = k
  | .pop, some idx => v.psq_count ≠ 0 ∧ ∃ s, v.psq_id idx = some (.inr s) ∧ .scb s = k
  | _, _ => False

omit [DecidableEq M] [DecidableEq S] [DecidableEq T] in
theorem hands_mucb {m : M} {v : Vars M S T} (h : a.Hands (.mucb m) v popping) :
    a = .service (.mutexRelease m) := by
  cases a with
  | service c =>
    cases c with
    | mutexRelease m' =>
      obtain rfl := Head.mucb.inj h
      rfl
    | semaphoreRelease s => cases h
    | _ => exact h.elim
  | pop =>
    cases popping with
    | none => exact h.elim
    | some idx =>
      obtain ⟨-, s, -, he⟩ := h
      cases he
  | _ => exact h.elim

omit [DecidableEq M] [DecidableEq S] [DecidableEq T] in
/-- The task that is woken, but for signals, is the first of its list. -/
theorem Act.Wakes.first (hw : a.Wakes q t popping) (hq : InOrder idle q popping)
    (hplace : ∀ h, q.place t = some h → h = k)
    (hstate : ¬ (q.vars.state t = .WAIT_AND ∨ q.vars.state t = .WAIT_OR)) :
    a.Hands k q.vars popping ∧ ∃ l, q.queue k = t :: l := by
  have hfirst : ∀ {h l}, q.queue h = t :: l → h = k := fun hl => hplace _ (hq.first hl)
  cases a with
  | service c =>
    cases c with
    | mutexRelease m =>
      obtain ⟨l, hl⟩ := hw
      obtain rfl := hfirst hl
      exact ⟨rfl, l, hl⟩
    | semaphoreRelease s =>
      obtain ⟨l, hl⟩ := hw
      obtain rfl := hfirst hl
      exact ⟨rfl, l, hl⟩
    | signalSet u f => exact absurd hw hstate
    | _ => exact hw.elim
  | pop =>
    cases popping with
    | none => exact hw.elim
    | some idx =>
      obtain ⟨hc, ⟨-, hs⟩ | ⟨s, he, l, hl⟩⟩ := hw
      · exact absurd hs hstate
      · obtain rfl := hfirst hl
        exact ⟨⟨hc, s, he, rfl⟩, l, hl⟩
  | _ => exact hw.elim

omit [DecidableEq M] [DecidableEq S] [DecidableEq T] in
/-- A task in a list is live, is not the one that runs, and has the state that says so. -/
theorem InOrder.listed (hq : InOrder idle q popping) (ht : q.place t = some k) : Live idle q.vars t ∧
    (popping = none → q.vars.run ≠ some t) ∧ Rests (some k) (q.vars.state t) := by
  cases popping with
  | none =>
    obtain ⟨⟨run, hchosen, hr⟩, -⟩ := hq
    have hne : t ≠ run := hchosen.ne_of_place ht
    have hrests := hchosen.sound.state_of_place ht fun hm => hne (List.mem_singleton.mp hm)
    exact ⟨hchosen.sound.placed t k ht, fun _ he => hne (Option.some.inj (he.symm.trans hr)), hrests⟩
  | some idx => exact ⟨hq.1.placed t k ht, nofun, hq.1.state_of_place ht List.not_mem_nil⟩

/-- A task in a waiting list that an action wakes is the first of the list. -/
theorem Act.first_served (hq : InOrder idle q popping) (hf : a.Fit idle q.vars) (hp : (a.prog popping).isSome)
    (ha : a ≠ .tick) (ht : q.place t = some k) (hk : k ≠ .rdy) (hend : ¬ a.Ends q.vars t)
    (hup : (a.effect q popping).1.vars.up t) : a.Hands k q.vars popping ∧ ∃ l, q.queue k = t :: l := by
  obtain ⟨hlive, hrun, hrests⟩ := hq.listed ht
  have hstate : q.vars.state t = .WAIT_MUT ∨ q.vars.state t = .WAIT_SEM := by
    cases k with
    | rdy => exact absurd rfl hk
    | mucb m => exact .inl hrests
    | scb s => exact .inr hrests
  have hwaits : (q.vars.state t).Waits := by
    rcases hstate with hs | hs <;> rw [hs]
    · exact .inr (.inr (.inr (.inr rfl)))
    · exact .inr (.inr (.inr (.inl rfl)))
  have hplace : q.place t ≠ some .rdy := fun he => hk (Option.some.inj (ht.symm.trans he))
  rcases a.sleeps hq hf hp ha hrun hplace (Act.not_names hq hf hp hlive hend) with hs | ⟨-, hw⟩
  · refine absurd hwaits (Vars.up.not_waits ?_)
    unfold Vars.up
    rw [← hs.state]
    exact hup
  · refine hw.first hq (fun h hh => Option.some.inj (hh.symm.trans ht)) ?_
    rintro (he | he) <;> rcases hstate with hs | hs <;> rw [he] at hs <;> cases hs

/-! ## The last of a list -/

omit [DecidableEq T] in
theorem putPrio_congr {prio prio' : T → Nat} {l : List T} (ht : prio t = prio' t)
    (hl : ∀ u ∈ l, prio u = prio' u) : putPrio prio t l = putPrio prio' t l := by
  induction l with
  | nil => rfl
  | cons u l ih =>
    rw [putPrio_cons, putPrio_cons, ih fun v hv => hl v (List.mem_cons_of_mem u hv), ht,
      hl u List.mem_cons_self]

omit [DecidableEq T] in
/-- A task goes behind those of its priority or above, and ahead of those below. -/
theorem putPrio_split {prio : T → Nat} {l : List T} (hl : Falling prio l) : ∃ l₁ l₂, l = l₁ ++ l₂ ∧
    putPrio prio t l = l₁ ++ t :: l₂ ∧ (∀ u ∈ l₁, prio t ≤ prio u) ∧ ∀ u ∈ l₂, prio u < prio t := by
  induction l with
  | nil => exact ⟨[], [], rfl, rfl, by simp, by simp⟩
  | cons u l ih =>
    rw [falling_cons] at hl
    rw [putPrio_cons]
    by_cases hu : prio t ≤ prio u
    · obtain ⟨l₁, l₂, hsplit, hput, habove, hbelow⟩ := ih hl.2
      rw [if_pos hu, hput]
      refine ⟨u :: l₁, l₂, by rw [hsplit, List.cons_append], rfl, fun v hv => ?_, hbelow⟩
      rcases List.mem_cons.mp hv with rfl | hv
      · exact hu
      · exact habove v hv
    · rw [if_neg hu]
      refine ⟨[], u :: l, rfl, rfl, by simp, fun v hv => ?_⟩
      rcases List.mem_cons.mp hv with rfl | hv
      · omega
      · have := hl.1 v hv
        omega

/-- A task that goes to sleep leaves the waiting lists as they are. -/
theorem block_queue {n : Nat} {st : TaskState} (hq : q.Wf) (hk : k ≠ .rdy) :
    (q.block x n st).queue k = q.queue k := by
  have hdelay : (q.delayFor x n).queue = q.queue ∧ (q.delayFor x n).place = q.place := by
    unfold Queues.delayFor
    split <;> exact ⟨rfl, rfl⟩
  obtain ⟨hqueue, hplace⟩ := hdelay
  unfold Queues.block Queues.next
  rw [edit_queue, hqueue]
  cases hl : q.queue .rdy with
  | nil =>
    simp only
    rw [edit_queue, hqueue]
  | cons y l =>
    have hy : ((q.delayFor x n).edit fun v => v.setState x st).place y = some .rdy := by
      rw [edit_place, hplace]
      exact (hq.place .rdy y).mp (hl ▸ List.mem_cons_self)
    refine (take_queue_of_ne _ hy hk).trans ?_
    rw [edit_queue, hqueue]

/-- The owner that inherits a priority is not in the list of its mutex. -/
theorem inherit_queue {m : M} {hand : List T} (hq : Sound idle P q hand) (hl : q.vars.level m ≠ 0)
    (hx : q.vars.owner m ≠ some x) : putPrio (q.inherit m x).vars.prio x ((q.inherit m x).queue (.mucb m)) =
      putPrio q.vars.prio x (q.queue (.mucb m)) := by
  obtain ⟨o, ho, hplace⟩ := hq.owned m hl
  unfold Queues.inherit
  simp only [ho]
  split
  · have hqueue : ((q.edit fun v => v.setPrio o (q.vars.prio x)).resort o).queue (.mucb m) = q.queue (.mucb m) := by
      unfold Queues.resort
      split
      · rfl
      · rename_i h hp
        have hne : .mucb m ≠ h := fun he => hplace (he ▸ hp)
        rw [put_queue_of_ne _ hne, take_queue_of_ne _ hp hne]
        rfl
    have hox : x ≠ o := fun he => hx (he ▸ ho)
    rw [hqueue, resort_vars]
    refine putPrio_congr (Function.update_of_ne hox ..) fun u hu => Function.update_of_ne ?_ ..
    rintro rfl
    exact hplace ((hq.wf.place _ _).mp hu)
  · rfl

/-- A call that waits in a list puts its task into it by its priority. -/
theorem Service.joins {c : Service M S T} (hq : Chosen idle P q x []) (hf : c.Fit idle q.vars x)
    (hk : c.list = some k) (hw : ((c.effect q x).2.vars.state x).Waits) :
    (c.effect q x).2.queue k = putPrio q.vars.prio x (q.queue k) := by
  have hrun : q.vars.state x = .RUNNING := hq.running
  cases c with
  | mutexWait m n =>
    obtain rfl := Option.some.inj hk
    revert hw
    simp only [Service.effect, Queues.mutWait]
    split
    · exact fun hw => absurd hrun hw.ne_running
    · rename_i hl
      split
      · exact fun hw => absurd hrun hw.ne_running
      · rename_i howner
        split
        · exact fun hw => absurd hrun hw.ne_running
        · intro _
          have hinh : Sound idle P (q.inherit m x) [x] := hq.sound.inherit fun o h hp =>
            ⟨hf.2 o hl h hp, fun hm => howner (List.mem_singleton.mp hm ▸ h)⟩
          have hout : (q.inherit m x).place x = none := (inherit_place_of_ne howner).trans hq.out
          have hadm : (q.inherit m x).Admits x (.mucb m) := by
            unfold Queues.Admits
            rw [inherit_vars]
            exact ⟨hl, howner⟩
          rw [block_queue (hinh.put List.mem_cons_self hout hadm).wf (by simp), put_queue_self]
          exact inherit_queue hq.sound hl howner
  | semaphoreWait r n =>
    obtain rfl := Option.some.inj hk
    revert hw
    simp only [Service.effect, Queues.semWait]
    split
    · exact fun hw => absurd hrun hw.ne_running
    · rename_i ht
      split
      · exact fun hw => absurd hrun hw.ne_running
      · intro _
        have hput : Sound idle P (q.put (.scb r) x) [x] :=
          hq.sound.put List.mem_cons_self hq.out (not_ne_iff.mp ht)
        rw [block_queue hput.wf (by simp), put_queue_self]
  | _ => cases hk

/-! ## Along a run -/

variable [Fintype T] {s s' : Core (Kernel M S T)}

/-- **The highest is served**: a task in the list of a mutex or a semaphore that is made ready or running, but
by the tick, is the first of the list and none in the list is above it, and the action has handed it what it
waits for. -/
theorem highest_served (h : (board idle).ReachIf (Fits idle) s) (hf : Fits idle a s)
    (hstep : (board idle).step a s = some s') (ha : a ≠ .tick) (hend : ¬ a.Ends s.kernel.vars t)
    (hin : s.kernel.In k t) (hk : k ≠ .rdy) (hup : s'.kernel.vars.up t) : a.Hands k s.kernel.vars s.popping ∧
      ∃ l, Chain XCB.tcb s.kernel.p_lnk (.head k) (t :: l) ∧
        ∀ u ∈ l, s.kernel.vars.prio u ≤ s.kernel.vars.prio t := by
  obtain ⟨q, hrel, hq⟩ := board_inOrder h
  obtain ⟨-, hrel', -⟩ := step_follows hrel hq hf hstep
  have ht : q.place t = some k := hrel.in_iff.mp hin
  unfold Fits at hf
  rw [hrel.1.vars] at hf hend ⊢
  rw [hrel'.1.vars] at hup
  obtain ⟨hhands, l, hl⟩ := Act.first_served hq hf (step_prog hstep) ha ht hk hend hup
  have hchain := hrel.1.links k
  have hfalling : Falling q.vars.prio (q.queue k) := by
    cases hp : s.popping with
    | none =>
      rw [hp] at hq
      obtain ⟨⟨_, hchosen, -⟩, -⟩ := hq
      exact hchosen.sound.falling k
    | some idx =>
      rw [hp] at hq
      exact hq.1.falling k
  rw [hl] at hchain hfalling
  exact ⟨hhands, l, hchain, (falling_cons.mp hfalling).1⟩

/-- **A task waits behind its equals**: one that starts to wait for a mutex or a semaphore goes behind those in
the list that are of its priority or above, and ahead of those below. -/
theorem joins_behind {c : Service M S T} (h : (board idle).ReachIf (Fits idle) s) (hf : Fits idle (.service c) s)
    (hstep : (board idle).step (.service c) s = some s') (hr : s.kernel.vars.run = some x)
    (hk : c.list = some k) (hw : (s'.kernel.vars.state x).Waits) :
    ∃ l₁ l₂, Chain XCB.tcb s.kernel.p_lnk (.head k) (l₁ ++ l₂) ∧
      Chain XCB.tcb s'.kernel.p_lnk (.head k) (l₁ ++ x :: l₂) ∧
      (∀ u ∈ l₁, s.kernel.vars.prio x ≤ s.kernel.vars.prio u) ∧
      ∀ u ∈ l₂, s.kernel.vars.prio u < s.kernel.vars.prio x := by
  obtain ⟨q, hrel, hq⟩ := board_inOrder h
  obtain ⟨-, hrel', -⟩ := step_follows hrel hq hf hstep
  have hprog := step_prog hstep
  cases hp : s.popping with
  | some idx =>
    rw [hp] at hprog
    cases hprog
  | none =>
    rw [hp] at hq hrel'
    unfold Fits at hf
    rw [hrel.1.vars] at hf hr ⊢
    rw [hrel'.1.vars] at hw
    obtain ⟨⟨x', hchosen, hr'⟩, -⟩ := hq
    obtain rfl := Option.some.inj (hr'.symm.trans hr)
    simp only [Act.effect, hr'] at hrel' hw
    have hjoins : (c.after q x').queue k = putPrio q.vars.prio x' (q.queue k) :=
      Service.joins hchosen (hf.2 x' hr') hk hw
    obtain ⟨l₁, l₂, hsplit, hput, habove, hbelow⟩ := putPrio_split (t := x') (hchosen.sound.falling k)
    have hbefore := hrel.1.links k
    have hafter := hrel'.1.links k
    rw [hsplit] at hbefore
    rw [hjoins, hput] at hafter
    exact ⟨l₁, l₂, hbefore, hafter, habove, hbelow⟩

theorem joins_behind_pair : ∃ l₁ l₂, Chain XCB.tcb pair.p_lnk (.head (.scb ())) (l₁ ++ l₂) ∧
    Chain XCB.tcb pairWaits.kernel.p_lnk (.head (.scb ())) (l₁ ++ 1 :: l₂) ∧
    (∀ u ∈ l₁, pair.vars.prio 1 ≤ pair.vars.prio u) ∧ ∀ u ∈ l₂, pair.vars.prio u < pair.vars.prio 1 :=
  joins_behind (.start pair_start) pair_wait_fits pairWaits_step (by decide) rfl
    (.inr (.inr (.inr (.inl (by decide)))))

/-- The kernel `pair` after its lower thread has released the semaphore the upper one waits for. -/
def pairServed : Core (Kernel Unit Unit (Fin 3)) :=
  ((board pairIdle).step (.service (.semaphoreRelease ())) pairWaits).get rfl

theorem pairServed_step : (board 2).step (.service (.semaphoreRelease ())) pairWaits = some pairServed :=
  (Option.some_get _).symm

theorem highest_served_pair : (Act.service (.semaphoreRelease ()) : Act Unit Unit (Fin 3)).Hands (.scb ())
      pairWaits.kernel.vars pairWaits.popping ∧
    ∃ l, Chain XCB.tcb pairWaits.kernel.p_lnk (.head (.scb ())) (1 :: l) ∧
      ∀ u ∈ l, pairWaits.kernel.vars.prio u ≤ pairWaits.kernel.vars.prio 1 := by
  have hreach : (board 2).ReachIf (Fits 2) pairWaits := .step (.start pair_start) pair_wait_fits pairWaits_step
  have hfits : Fits (2 : Fin 3) (.service (.semaphoreRelease ())) pairWaits := ⟨by decide, fun _ _ => trivial⟩
  have hlast : pairWaits.kernel.p_lnk (.tcb 1) = none := by decide
  have hin : pairWaits.kernel.In (.scb ()) 1 := ⟨[1], ⟨by decide, hlast⟩, by decide⟩
  have hup : pairServed.kernel.vars.up 1 := .inr (by decide)
  exact highest_served hreach hfits pairServed_step (by intro he; cases he) not_false hin
    (by intro he; cases he) hup

end Expedition.Rtx
