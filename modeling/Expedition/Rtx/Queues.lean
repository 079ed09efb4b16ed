import Expedition.Lib.Interface
import Expedition.Lib.Links
import Expedition.Rtx.Lists

/-!
# The kernel's lists as lists

What the pointers of `rt_List.c` stand for: a list of tasks for each header, and the delayed tasks with
the tick at which each is due.

* `Queues` — the lists, the variables, and the tick count; `Queues.Wf` — no task is in two lists.
* `Op` — the functions of `rt_List.c` as calls; `Op.low` runs them on pointers, `Op.high` on lists,
  where a call made outside of what the function is for is refused.
-/

namespace Expedition.Rtx

open Exec Linked

variable {M S T : Type}

/-- The lists of the kernel.  `place` is the list a task is in, `delay` has each delayed task with the
tick it is due at, and `stale` marks the tasks taken out of a waiting list with their back link left. -/
structure Queues (M S T : Type) where
  queue : Head M S → List T
  place : T → Option (Head M S)
  delay : List (T × Nat)
  now : Nat
  stale : T → Bool
  vars : Vars M S T

namespace Queues

/-- The tasks that are delayed. -/
abbrev delayed (q : Queues M S T) : List T := q.delay.map Prod.fst

/-- The nodes of one list. -/
def nodes (q : Queues M S T) (h : Head M S) : List (XCB M S T) := .head h :: (q.queue h).map .tcb

/-- The nodes of the delay list. -/
def dlyNodes (q : Queues M S T) : List (DCB T) := .os_dly :: q.delayed.map .tcb

structure Wf (q : Queues M S T) : Prop where
  nodup : ∀ h, (q.queue h).Nodup
  place : ∀ h t, t ∈ q.queue h ↔ q.place t = some h
  delayed : q.delayed.Nodup
  soon : ∀ p ∈ q.delay, p.2 ≤ q.now + 65534
  fresh : ∀ t h, q.place t = some h → q.stale t = false

theorem Wf.out {q : Queues M S T} (hq : q.Wf) {t : T} (ht : q.place t = none) (h : Head M S) :
    t ∉ q.queue h := by
  intro hm
  rw [(hq.place h t).mp hm] at ht
  cases ht

theorem Wf.nodes_nodup {q : Queues M S T} (hq : q.Wf) (h : Head M S) : (q.nodes h).Nodup := by
  refine List.nodup_cons.mpr ⟨by simp, ?_⟩
  exact (hq.nodup h).map fun _ _ he => XCB.tcb.inj he

theorem Wf.dlyNodes_nodup {q : Queues M S T} (hq : q.Wf) : q.dlyNodes.Nodup := by
  refine List.nodup_cons.mpr ⟨by simp, ?_⟩
  exact hq.delayed.map fun _ _ he => DCB.tcb.inj he

/-- Two lists share no node. -/
theorem Wf.apart {q : Queues M S T} (hq : q.Wf) {h h' : Head M S} (hne : h' ≠ h) {n : XCB M S T}
    (hn : n ∈ q.nodes h) : n ∉ q.nodes h' := by
  intro hn'
  rcases List.mem_cons.mp hn with rfl | hn
  · rcases List.mem_cons.mp hn' with he | hn'
    · exact hne (XCB.head.inj he).symm
    · simp at hn'
  · obtain ⟨t, ht, rfl⟩ := List.mem_map.mp hn
    rcases List.mem_cons.mp hn' with he | hn'
    · cases he
    · obtain ⟨t', ht', he⟩ := List.mem_map.mp hn'
      cases he
      rw [hq.place] at ht ht'
      exact hne (Option.some.inj (ht'.symm.trans ht))

variable [DecidableEq M] [DecidableEq S] [DecidableEq T]

/-- Behind the tasks of the same or a higher priority. -/
def putPrio (prio : T → Nat) (t : T) (l : List T) : List T :=
  l.takeWhile (fun u => prio t ≤ prio u) ++ t :: l.dropWhile fun u => prio t ≤ prio u

/-- Ahead of the tasks that are due at the same tick or later. -/
def putDate (t : T) (d : Nat) (l : List (T × Nat)) : List (T × Nat) :=
  l.takeWhile (fun p => p.2 < d) ++ (t, d) :: l.dropWhile fun p => p.2 < d

/-- Write one list, and note that `t` is in it. -/
def enlist (q : Queues M S T) (h : Head M S) (t : T) (l : List T) : Queues M S T :=
  { q with
    queue := Function.update q.queue h l
    place := Function.update q.place t (some h)
    stale := Function.update q.stale t false }

/-- Take `t` out of the list it is in. -/
def take (q : Queues M S T) (t : T) : Queues M S T :=
  match q.place t with
  | none => q
  | some h =>
    { q with
      queue := Function.update q.queue h ((q.queue h).erase t)
      place := Function.update q.place t none }

/-- Make the task ready. -/
def ready (q : Queues M S T) (t : T) : Queues M S T :=
  { q with vars := q.vars.setState t .READY }

/-- Put `t` into the list `h` by its priority. -/
def put (q : Queues M S T) (h : Head M S) (t : T) : Queues M S T :=
  q.enlist h t (putPrio q.vars.prio t (q.queue h))

/-- What happens to a task whose time has come. -/
def release (q : Queues M S T) (t : T) : Queues M S T :=
  ((q.take t).put .rdy t).ready t

end Queues

/-! ## The calls -/

/-- The functions of `rt_List.c`, and the reading and writing of the other variables. -/
inductive Op (M S T : Type) where
  | fault (e : Fault)
  | get
  | modify (f : Vars M S T → Vars M S T)
  | lnk (h : Head M S)
  | put_prio (h : Head M S) (t : T)
  | get_first (h : Head M S)
  | put_rdy_first (t : T)
  | get_same_rdy_prio
  | resort_prio (t : T)
  | put_only (h : Head M S) (t : T)
  | put_dly (t : T) (delay : Nat)
  | dec_dly
  | rmv_list (t : T)
  | rmv_dly (t : T)
  | init_links (t : T)

/-- What each of them returns. -/
@[reducible] def Op.Res : Op M S T → Type
  | .fault _ => Empty
  | .get => Vars M S T
  | .lnk _ => Option T
  | .get_first _ => T
  | .get_same_rdy_prio => Option T
  | _ => Unit

variable [DecidableEq M] [DecidableEq S] [DecidableEq T]

/-- The calls on the pointers. -/
def Op.low [Fintype T] : (o : Op M S T) → Rt M S T o.Res
  | .fault e => fail e
  | .get => fun k => (.ok k.vars, k)
  | .modify f => update fun k => { k with vars := f k.vars }
  | .lnk h => fun k => (.ok (k.p_lnk (.head h)), k)
  | .put_prio h t => rt_put_prio h t
  | .get_first h => rt_get_first h
  | .put_rdy_first t => rt_put_rdy_first t
  | .get_same_rdy_prio => rt_get_same_rdy_prio
  | .resort_prio t => rt_resort_prio t
  | .put_only h t => Rtx.put_only h t
  | .put_dly t d => rt_put_dly t d
  | .dec_dly => rt_dec_dly
  | .rmv_list t => rt_rmv_list t
  | .rmv_dly t => rt_rmv_dly t
  | .init_links t => Rtx.init_links t

/-- Go on only where the call is used as it is meant to be. -/
def require {σ : Type} (c : Prop) [Decidable c] (m : Exec σ Fault Unit) : Exec σ Fault Unit :=
  if c then m else fail .null_deref

open Queues

/-- The calls on the lists. -/
def Op.high : (o : Op M S T) → Exec (Queues M S T) Fault o.Res
  | .fault e => fail e
  | .get => fun q => (.ok q.vars, q)
  | .modify f => update fun q => { q with vars := f q.vars }
  | .lnk h => fun q => (.ok (q.queue h).head?, q)
  | .put_prio h t => fun q => require (q.place t = none) (update fun q => q.put h t) q
  | .get_first h => fun q =>
    match q.queue h with
    | [] => (.error .null_deref, q)
    | t :: _ => (.ok t, q.take t)
  | .put_rdy_first t => fun q =>
    require (q.place t = none) (update fun q => q.enlist .rdy t (t :: q.queue .rdy)) q
  | .get_same_rdy_prio => fun q =>
    match q.queue .rdy, q.vars.run with
    | t :: _, some run =>
      if q.vars.prio t = q.vars.prio run then (.ok (some t), q.take t) else (.ok none, q)
    | _, _ => (.error .null_deref, q)
  | .resort_prio t => fun q =>
    match q.place t with
    | none => require (q.stale t = false ∧ q.vars.state t ≠ .READY) (pure ()) q
    | some .rdy => require (q.stale t = false ∧ q.vars.state t = .READY)
        (update fun q => (q.take t).put .rdy t) q
    | some h => (.ok (), (q.take t).put h t)
  | .put_only h t => fun q =>
    require (q.queue h = [] ∧ q.place t = none ∧ h.sem_mbx = true) (update fun q => q.enlist h t [t]) q
  | .put_dly t d => fun q =>
    require (t ∉ q.delayed ∧ 0 < d ∧ d < 65535)
      (update fun q => { q with delay := putDate t (q.now + d) q.delay }) q
  | .dec_dly => fun q =>
    require (∀ p ∈ q.delay, p.2 ≤ q.now + 1 → q.stale p.1 = false ∧ q.place p.1 ≠ some .rdy)
      (update fun q =>
        ((q.delay.takeWhile fun p => p.2 ≤ q.now + 1).map Prod.fst).foldl Queues.release
          { q with now := q.now + 1, delay := q.delay.dropWhile fun p => p.2 ≤ q.now + 1 }) q
  | .rmv_list t => fun q =>
    require (q.stale t = false)
      (update fun q => { q.take t with stale := Function.update q.stale t true }) q
  | .rmv_dly t => update fun q => { q with delay := q.delay.filter fun p => p.1 ≠ t }
  | .init_links t => fun q =>
    require (q.place t = none ∧ t ∉ q.delayed)
      (update fun q => { q with stale := Function.update q.stale t false }) q

end Expedition.Rtx
