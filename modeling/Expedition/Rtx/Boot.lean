import Expedition.Rtx.Rises
import Expedition.Rtx.System

/-!
# From reset to the first thread

The memory is cleared, the kernel is initialised with the idle demon running, the threads are created
one after the other, and the kernel starts: the demon gets the lowest priority of all and the first
thread of the highest one goes on.

* `Queues.cleared`, `Kernel.cleared` — the state after reset.
* `boot_run` — the start comes to a kernel in order, with a thread running.
-/

namespace Expedition.Rtx

open Queues

variable {M S T : Type}

/-- The variables after reset; semaphores are set up with their tokens. -/
def Vars.cleared (tokens : S → Nat) : Vars M S T where
  prio _ := 0
  state _ := .INACTIVE
  interval_time _ := 0
  events _ := 0
  waits _ := 0
  task_id _ := 0
  is_tcb _ := false
  ret _ := 0
  os_active_TCB _ := none
  mut_prio _ := 0
  level _ := 0
  owner _ := none
  tokens := tokens
  os_time := 0
  robin_task := none
  robin_time := 0
  robin_tout := 0
  run := none
  new_tsk := none
  psq_first := 0
  psq_last := 0
  psq_count := 0
  psq_id _ := none
  psq_arg _ := 0

def Queues.cleared (tokens : S → Nat) : Queues M S T where
  queue _ := []
  place _ := none
  delay := []
  now := 0
  stale _ := false
  vars := Vars.cleared tokens

def Kernel.cleared (tokens : S → Nat) : Kernel M S T where
  p_lnk _ := none
  p_rlnk _ := none
  p_dlnk _ := none
  p_blnk _ := none
  delta_time _ := 0
  vars := Vars.cleared tokens

/-- All lists are empty. -/
theorem cleared_rel (tokens : S → Nat) :
    Rel (Kernel.cleared tokens : Kernel M S T) (Queues.cleared tokens) := by
  refine ⟨⟨⟨fun _ => List.nodup_nil, fun _ _ => ⟨nofun, nofun⟩, List.nodup_nil, nofun, nofun⟩, fun _ => rfl,
    fun _ _ => trivial, fun _ _ _ => rfl, rfl, trivial, fun _ _ => rfl, rfl, rfl⟩, nofun⟩

/-- No task waits, no mutex is locked, and the semaphores have their tokens. -/
structure Fresh (tokens : S → Nat) (v : Vars M S T) : Prop where
  awake : ∀ t, ¬ (v.state t).Waits
  level : ∀ m, v.level m = 0
  tokens : v.tokens = tokens
  robin_task : v.robin_task = none
  robin_tout : v.robin_tout = u16 os_rrobin
  psq_count : v.psq_count = 0

/-- What makes tasks ready and leaves the rest alone keeps a kernel fresh. -/
theorem Fresh.rises {tokens : S → Nat} {q q' : Queues M S T} (h : Fresh tokens q.vars)
    (hr : Rises (fun _ => False) q q') (hw : q'.vars.words = q.vars.words)
    (ht : q'.vars.robin_task = q.vars.robin_task) (ho : q'.vars.robin_tout = q.vars.robin_tout) :
    Fresh tokens q'.vars := by
  refine ⟨fun t hwaits => ?_, fun m => ?_, ?_, ht.trans h.robin_task, ho.trans h.robin_tout, ?_⟩
  · rcases hr.state t not_false with hs | hs
    · rw [hs] at hwaits
      exact h.awake t hwaits
    · exact hs.not_waits hwaits
  · exact (congrFun (congrArg Words.level hw) m).trans (h.level m)
  · exact (congrArg Words.tokens hw).trans h.tokens
  · exact (congrArg (fun w => w.desk.count) hw).trans h.psq_count

variable [DecidableEq M] [DecidableEq S] [DecidableEq T] {idle : T} {q : Queues M S T} {ts : List T}
  {t : T} {p : Int} {tokens : S → Nat}

/-- The kernel while the threads are created; `ts` have been so far. -/
structure Booting (idle : T) (tokens : S → Nat) (q : Queues M S T) (ts : List T) : Prop where
  sound : Sound idle (fun _ => False) q [idle]
  out : q.place idle = none
  awake : idle ∉ q.delayed
  run : q.vars.run = some idle
  prio : q.vars.prio idle = 255
  table : ∀ i, q.vars.os_active_TCB i = ts[i]?
  desk : q.vars.desk.count = 0 ∧ q.vars.desk.first = 0 ∧ q.vars.desk.last = 0
  ready : ∀ u, u ∈ q.queue .rdy ↔ u ∈ ts
  above : ∀ u ∈ ts, 0 < q.vars.prio u
  fresh : Fresh tokens q.vars

omit [DecidableEq M] [DecidableEq S] [DecidableEq T] in
/-- With nothing in any list and the table empty, only the idle demon is there. -/
theorem Sound.initial (hwf : q.Wf) (hqueue : ∀ h, q.queue h = []) (hplace : ∀ u, q.place u = none)
    (hdelay : q.delay = []) (hact : ∀ i, q.vars.os_active_TCB i = none)
    (htcb : ∀ u, q.vars.is_tcb u = true → u = idle) (hlevel : ∀ m, q.vars.level m = 0)
    (hstale : q.stale idle = false) : Sound idle (fun _ => False) q [idle] := by
  have hlive : ∀ u, Live idle q.vars u → u = idle := by
    rintro u (rfl | ⟨i, hi⟩)
    · rfl
    · rw [hact] at hi
      cases hi
  refine ⟨hwf, fun h => ?_, ?_, ?_, fun u h hu => ?_, ?_, fun u hu => ?_, ?_, fun u hu hn => ?_,
    fun u hu => ?_, .inl List.mem_cons_self, fun i u hi => ?_, fun u hu hne => ?_, fun m u hu => ?_,
    fun m hm => absurd (hlevel m) hm, fun s u hu => ?_, fun u hu => hu.elim⟩
  · rw [hqueue]
    exact List.Pairwise.nil
  · rw [hdelay]
    exact List.Pairwise.nil
  · rw [hdelay]
    exact fun p hp => absurd hp List.not_mem_nil
  · rw [hplace] at hu
    cases hu
  · rw [Queues.delayed, hdelay]
    exact fun p hp => absurd hp List.not_mem_nil
  · rw [hplace] at hu
    cases hu
  · exact fun u hu => .inl (List.mem_singleton.mp hu)
  · exact absurd (List.mem_singleton.mpr (hlive u hu)) hn
  · rw [hlive u hu]
    exact hstale
  · rw [hact] at hi
    cases hi
  · exact absurd (htcb u hu) hne
  · rw [hplace] at hu
    cases hu
  · rw [hplace] at hu
    cases hu

/-- `svcKernelInitialize`. -/
theorem svcKernelInitialize_run (tokens : S → Nat) :
    ∃ q, (svcKernelInitialize idle : Rtk M S T Unit).run Op.high (Queues.cleared tokens) = (.ok (), q) ∧
      Booting idle tokens q [] := by
  have hctx := rt_init_context_run (t := idle) (p := 0) (q := (Queues.cleared tokens : Queues M S T).edit
    fun v => { v with
      os_active_TCB := fun _ => none
      task_id := Function.update v.task_id idle idle_id }) rfl List.not_mem_nil
  have hsys := run_then (p := (rt_sys_init idle : Rtk M S T Unit)) (q := Queues.cleared tokens)
    (k := fun _ => Call.modify fun v => v.setPrio idle 255) (a := ())
    (by rw [rt_sys_init, run_then (run_modify _), run_then hctx]; exact run_modify _)
  refine ⟨_, hsys.trans (run_modify _), ?_, rfl, List.not_mem_nil, rfl, Function.update_self .., fun _ => rfl,
    ⟨rfl, rfl, rfl⟩, fun _ => Iff.rfl, nofun, fun t hw => ?_, fun _ => rfl, rfl, rfl, rfl, rfl⟩
  swap
  · change TaskState.Waits (Function.update (Function.update (fun _ => TaskState.INACTIVE) idle .READY) idle
      .RUNNING t) at hw
    by_cases ht : t = idle
    · rw [ht, Function.update_self] at hw
      exact hw.ne_running rfl
    · rw [Function.update_of_ne ht, Function.update_of_ne ht] at hw
      rcases hw with h | h | h | h | h <;> cases h
  refine Sound.initial ⟨fun _ => List.nodup_nil, fun _ _ => ⟨nofun, nofun⟩, List.nodup_nil, nofun, nofun⟩
    (fun _ => rfl) (fun _ => rfl) rfl (fun _ => rfl) (fun u hu => ?_) (fun _ => rfl)
    (Function.update_self ..)
  by_contra hne
  change Function.update (fun _ => false) idle true u = true at hu
  rw [Function.update_of_ne hne] at hu
  cases hu

omit [DecidableEq M] [DecidableEq S] [DecidableEq T] in
/-- The slots are taken one after the other. -/
theorem Booting.slot (hq : Booting idle tokens q ts) (hlen : ts.length < os_maxtaskrun) :
    rt_get_TID q.vars = ts.length + 1 := by
  have hfind : ((List.range os_maxtaskrun).find? fun i => (q.vars.os_active_TCB i).isNone) =
      some ts.length := by
    rw [List.find?_range_eq_some]
    refine ⟨?_, List.mem_range.mpr hlen, fun j hj => ?_⟩
    · rw [hq.table, List.getElem?_eq_none (le_refl _)]
      rfl
    · rw [hq.table, List.getElem?_eq_getElem hj]
      rfl
  unfold rt_get_TID
  rw [hfind]

/-- One thread is created: it goes into the ready list, as the demon is above all others yet. -/
theorem Booting.create (hq : Booting idle tokens q ts) (ht : t ∉ ts) (hti : t ≠ idle)
    (hlen : ts.length < os_maxtaskrun) (hp : -3 ≤ p ∧ p ≤ 3) :
    ∃ q', (svcThreadCreate t p : Rtk M S T Nat).run Op.high q = (.ok 1, q') ∧
      Booting idle tokens q' (ts ++ [t]) := by
  have hlive : ¬ Live idle q.vars t := by
    rintro (he | ⟨i, hi⟩)
    · exact hti he
    · rw [hq.table] at hi
      exact ht (List.mem_of_getElem? hi)
  have hslot := hq.slot hlen
  have hfree : q.vars.os_active_TCB ts.length = none := by rw [hq.table, List.getElem?_eq_none (le_refl _)]
  obtain ⟨hplace, hd⟩ := hq.sound.absent hlive
  have hrun := svcThreadCreate_run (t := t) (p := p) hq.run hq.out
    fun _ _ => ⟨hplace, hd, by omega⟩
  have hlow : ¬ (q.enrol t (p + 4).toNat ts.length).vars.prio t >
      (q.enrol t (p + 4).toNat ts.length).vars.prio idle := by
    show ¬ Function.update q.vars.prio t (p + 4).toNat t > Function.update q.vars.prio t (p + 4).toNat idle
    rw [Function.update_self, Function.update_of_ne hti.symm, hq.prio]
    omega
  have heffect : (Service.threadCreate t p : Service M S T).effect q idle =
      (1, (q.enrol t (p + 4).toNat ts.length).toReady t) := by
    simp only [Service.effect]
    rw [if_neg (by omega), hslot, Nat.add_sub_cancel]
    unfold Queues.dispatch
    rw [if_neg hlow]
  rw [heffect] at hrun
  have hbirth : Sound idle (fun _ => False) (q.enrol t (p + 4).toNat ts.length) [t, idle] :=
    hq.sound.birth hlive hfree hlen rfl (fun u hu => Function.update_of_ne hu ..)
      fun u hu => Function.update_of_ne hu ..
  have hrises : Rises (fun _ => False) q ((q.enrol t (p + 4).toNat ts.length).toReady t) :=
    enrol_rises.trans (Rises.toReady _ t)
  refine ⟨_, hrun, hbirth.toReady hplace hd, ?_, hq.awake, hq.run, ?_, fun i => ?_, hq.desk, fun u => ?_,
    fun u hu => ?_, hq.fresh.rises hrises rfl rfl rfl⟩
  · exact (Function.update_of_ne hti.symm ..).trans hq.out
  · exact (Function.update_of_ne hti.symm ..).trans hq.prio
  · show Function.update q.vars.os_active_TCB ts.length (some t) i = _
    by_cases hi : i = ts.length
    · subst hi
      rw [Function.update_self, List.getElem?_append_right (le_refl _), Nat.sub_self]
      rfl
    · rw [Function.update_of_ne hi, hq.table]
      rcases Nat.lt_or_gt_of_ne hi with hlt | hgt
      · rw [List.getElem?_append_left hlt]
      · rw [List.getElem?_eq_none (by omega), List.getElem?_eq_none (by simp; omega)]
  · rw [toReady_queue, mem_putPrio, List.mem_append, List.mem_singleton]
    show u = t ∨ u ∈ q.queue .rdy ↔ _
    rw [hq.ready]
    exact or_comm
  · show 0 < Function.update q.vars.prio t (p + 4).toNat u
    rcases List.mem_append.mp hu with hu | hu
    · have hut : u ≠ t := fun he => ht (he ▸ hu)
      rw [Function.update_of_ne hut]
      exact hq.above u hu
    · rw [List.mem_singleton.mp hu, Function.update_self]
      omega

/-- All threads are created. -/
theorem Booting.creates {threads : List (T × Int)} (hq : Booting idle tokens q ts)
    (hnd : (ts ++ threads.map Prod.fst).Nodup) (hidle : ∀ p ∈ threads, p.1 ≠ idle)
    (hlen : ts.length + threads.length ≤ os_maxtaskrun) (hp : ∀ p ∈ threads, -3 ≤ p.2 ∧ p.2 ≤ 3) :
    ∃ q', (threads.forM fun p => do let _ ← svcThreadCreate p.1 p.2 : Rtk M S T Unit).run Op.high q =
      (.ok (), q') ∧ Booting idle tokens q' (ts ++ threads.map Prod.fst) := by
  induction threads generalizing q ts with
  | nil => exact ⟨q, rfl, by rwa [List.map_nil, List.append_nil]⟩
  | cons c l ih =>
    rw [List.length_cons] at hlen
    have hc : c.1 ∉ ts := fun hm =>
      (List.nodup_append.mp hnd).2.2 c.1 hm c.1 (List.mem_map_of_mem List.mem_cons_self) rfl
    obtain ⟨q₁, hrun, hq₁⟩ := hq.create hc (hidle c List.mem_cons_self) (by omega) (hp c List.mem_cons_self)
    have happ : ts ++ (c :: l).map Prod.fst = ts ++ [c.1] ++ l.map Prod.fst := by simp
    rw [happ] at hnd ⊢
    obtain ⟨q₂, hrun₂, hq₂⟩ := ih hq₁ hnd (fun p hp => hidle p (List.mem_cons_of_mem _ hp))
      (by rw [List.length_append, List.length_singleton]; omega) fun p hm => hp p (List.mem_cons_of_mem _ hm)
    refine ⟨q₂, ?_, hq₂⟩
    show ((svcThreadCreate c.1 c.2 >>= fun _ => pure ()) >>= fun _ => _ : Rtk M S T Unit).run Op.high q = _
    have hone : (svcThreadCreate c.1 c.2 >>= fun _ => pure () : Rtk M S T Unit).run Op.high q =
        (.ok (), q₁) := by
      rw [run_then hrun]
      rfl
    rw [run_then hone]
    exact hrun₂

/-- The demon steps back behind all threads, and the first of them goes on. -/
theorem Booting.start (hq : Booting idle tokens q ts) (hts : ts ≠ []) :
    ∃ q', (svcKernelStart : Rtk M S T Unit).run Op.high q = (.ok (), q') ∧ InOrder idle q'.switched none ∧
      Fresh tokens q'.switched.vars := by
  have hne : q.queue .rdy ≠ [] := by
    obtain ⟨c, l, rfl⟩ := List.exists_cons_of_ne_nil hts
    exact List.ne_nil_of_mem ((hq.ready c).mpr List.mem_cons_self)
  obtain ⟨y, l, hy⟩ := List.exists_cons_of_ne_nil hne
  have hyield : (q.edit fun v => v.setPrio idle 0).yieldTo idle 0 =
      ((q.edit fun v => v.setPrio idle 0).toReady idle).next := by
    have hyidle : y ≠ idle := by
      rintro rfl
      have hp := (hq.sound.wf.place .rdy y).mp (hy ▸ List.mem_cons_self)
      rw [hq.out] at hp
      cases hp
    have hpos : (q.edit fun v => v.setPrio idle 0).vars.prio y > 0 := by
      show Function.update q.vars.prio idle 0 y > 0
      rw [Function.update_of_ne hyidle]
      exact hq.above y ((hq.ready y).mp (hy ▸ List.mem_cons_self))
    unfold Queues.yieldTo
    simp only [edit_queue, hy]
    rw [if_pos hpos]
  have hprio : (rt_tsk_prio 0 0 : Rtk M S T Nat).run Op.high q =
      (.ok OS_R_OK, (q.edit fun v => v.setPrio idle 0).yieldTo idle 0) := by
    rw [rt_tsk_prio, run_then run_get, if_pos rfl, hq.run]
    show (Call.modify _ >>= _ : Rtk M S T Nat).run Op.high q = _
    rw [run_then (run_modify _)]
    exact rt_tsk_prio_self_run (q := q.edit fun v => v.setPrio idle 0) hy hq.run hq.out
  have hmoved : Moved (q.edit fun v => v.setPrio idle 0) ((q.edit fun v => v.setPrio idle 0).yieldTo idle 0) :=
    Moved.yieldTo _ idle 0
  have hdesk : ((q.edit fun v => v.setPrio idle 0).yieldTo idle 0).vars.desk = q.vars.desk :=
    congrArg Words.desk hmoved.words
  have hfresh : Fresh tokens ((q.edit fun v => v.setPrio idle 0).yieldTo idle 0).vars := by
    have hedit : Rises (fun _ => False) q (q.edit fun v => v.setPrio idle 0) := Rises.edit rfl rfl rfl
    refine hq.fresh.rises (hedit.trans (Rises.yieldTo _ idle 0)) hmoved.words ?_ ?_
    · rw [hmoved]
      rfl
    · rw [hmoved]
      rfl
  obtain ⟨x, hx⟩ := ((hq.sound.setPrio hq.out 0).toReady hq.out hq.awake).next
  rw [← hyield] at hx
  generalize (q.edit fun v => v.setPrio idle 0).yieldTo idle 0 = q₁ at hprio hdesk hfresh hx
  have hcount : q₁.vars.desk.count = 0 := by rw [hdesk]; exact hq.desk.1
  have hlast : q₁.vars.psq_last = 0 := (congrArg Desk.last hdesk).trans hq.desk.2.2
  have hstop : Chosen idle (fun _ => False) (q₁.edit fun v => { v with run := none }) x [] :=
    hx.edit ⟨rfl, rfl, rfl, rfl, rfl, rfl, rfl, rfl⟩ rfl
  refine ⟨q₁.edit fun v => { v with run := none }, ?_, Chosen.inOrder (x := x) ?_ ?_,
    ⟨hfresh.awake, hfresh.level, hfresh.tokens, hfresh.robin_task, hfresh.robin_tout, hfresh.psq_count⟩⟩
  · rw [svcKernelStart, run_then hprio]
    exact run_modify _
  · exact hstop.renamed fun t ht => absurd ht (Desk.not_pending hcount)
  · show q₁.vars.desk.Ring q₁.vars.psq_last
    rw [hlast]
    refine ⟨by decide, by rw [hcount]; decide, ?_, fun p hp => ?_⟩
    · rw [hcount, hdesk, hq.desk.2.1]
      rfl
    · rw [Desk.queue, hcount] at hp
      cases hp

/-- What the threads of a start are. -/
structure Startable (idle : T) (threads : List (T × Int)) : Prop where
  nodup : (threads.map Prod.fst).Nodup
  idle : ∀ p ∈ threads, p.1 ≠ idle
  some : threads ≠ []
  few : threads.length ≤ os_maxtaskrun
  prio : ∀ p ∈ threads, -3 ≤ p.2 ∧ p.2 ≤ 3

/-- **The start comes to a kernel in order, with one of the threads running.** -/
theorem boot_run {threads : List (T × Int)} (h : Startable idle threads) (tokens : S → Nat) :
    ∃ q, (boot idle threads : Rtk M S T Unit).run Op.high (Queues.cleared tokens) = (.ok (), q) ∧
      InOrder idle q none ∧ Fresh tokens q.vars := by
  obtain ⟨q₁, hrun₁, hq₁⟩ : ∃ q, (svcKernelInitialize idle : Rtk M S T Unit).run Op.high
      (Queues.cleared tokens) = (.ok (), q) ∧ Booting idle tokens q [] := svcKernelInitialize_run tokens
  obtain ⟨q₂, hrun₂, hq₂⟩ := hq₁.creates (by simpa using h.nodup) h.idle (by simpa using h.few) h.prio
  obtain ⟨q₃, hrun₃, hq₃, hfresh⟩ := hq₂.start (by simpa using h.some)
  refine ⟨q₃.switched, ?_, hq₃, hfresh⟩
  rw [boot, run_then hrun₁, run_then hrun₂, run_then hrun₃]
  exact run_Sys_Switch

end Expedition.Rtx
