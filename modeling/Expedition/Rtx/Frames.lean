import Expedition.Rtx.Posts
import Expedition.Rtx.Steps

/-!
# What the kernel functions leave alone

A move changes the states of tasks and the task chosen, and no other variable.  So a function that does
nothing to a mutex, a semaphore or the requests of interrupts but by moves leaves them as they were.

* `Moved` — only states and the task chosen differ; `Moved.next`, `Moved.dispatch`, … for the moves.
* `Words` — the counters of mutexes and semaphores and the requests of interrupts; `mutWait_words`,
  `semSend_words`, … — what each function does to them.
-/

namespace Expedition.Rtx

open Queues

variable {M S T : Type}

/-- The time and the round robin. -/
structure Clock (T : Type) where
  os_time : Nat
  robin_task : Option T
  robin_time : Nat
  robin_tout : Nat

/-- The counters of the mutexes and the semaphores, the requests of the interrupts, and the clock. -/
structure Words (M S T : Type) where
  level : M → Nat
  owner : M → Option T
  tokens : S → Nat
  desk : Desk S T
  clock : Clock T

def Vars.clock (v : Vars M S T) : Clock T := ⟨v.os_time, v.robin_task, v.robin_time, v.robin_tout⟩

def Vars.words (v : Vars M S T) : Words M S T := ⟨v.level, v.owner, v.tokens, v.desk, v.clock⟩

/-- Of the variables, only states and the task chosen differ. -/
def Moved (q q' : Queues M S T) : Prop :=
  q'.vars = { q.vars with state := q'.vars.state, new_tsk := q'.vars.new_tsk }

variable {q q' q'' : Queues M S T}

namespace Moved

theorem of_vars (h : q'.vars = q.vars) : Moved q q' := by
  unfold Moved
  rw [h]

theorem trans (h : Moved q q') (h' : Moved q' q'') : Moved q q'' := by
  unfold Moved at *
  rw [h', h]

theorem words (h : Moved q q') : q'.vars.words = q.vars.words := by
  rw [h]
  rfl

theorem events (h : Moved q q') : q'.vars.events = q.vars.events := by rw [h]

theorem ret (h : Moved q q') : q'.vars.ret = q.vars.ret := by rw [h]

end Moved

variable [DecidableEq M] [DecidableEq S] [DecidableEq T] {x t : T}

omit [DecidableEq M] [DecidableEq S] [DecidableEq T] in
theorem delayFor_vars (q : Queues M S T) (t : T) (n : Nat) : (q.delayFor t n).vars = q.vars := by
  unfold Queues.delayFor
  split <;> rfl

namespace Moved

theorem next (q : Queues M S T) : Moved q q.next := by
  unfold Queues.next
  split
  · rfl
  · exact (of_vars take_vars).trans rfl

theorem dispatch (q : Queues M S T) (x t : T) : Moved q (q.dispatch x t) := by
  unfold Queues.dispatch
  split <;> rfl

theorem block (q : Queues M S T) (x : T) (n : Nat) (s : TaskState) : Moved q (q.block x n s) := by
  refine (of_vars (delayFor_vars q x n)).trans (Moved.trans ?_ (next _))
  rfl

theorem pass (q : Queues M S T) (x : T) : Moved q (q.pass x) := by
  unfold Queues.pass
  split
  · rfl
  · split
    · exact (of_vars take_vars).trans rfl
    · rfl

theorem yieldTo (q : Queues M S T) (x : T) (p : Nat) : Moved q (q.yieldTo x p) := by
  unfold Queues.yieldTo
  split
  · rfl
  · split
    · exact (show Moved q (q.toReady x) from rfl).trans (next _)
    · rfl

theorem goOn (q : Queues M S T) (x t : T) : Moved q (q.goOn x t) := by
  unfold Queues.goOn
  split
  · rfl
  · split
    · exact dispatch _ _ _
    · exact (show Moved q ((q.toReady x).toReady t) from rfl).trans (next _)

theorem releases (l : List T) (q : Queues M S T) : Moved q (l.foldl Queues.release q) := by
  induction l generalizing q with
  | nil => rfl
  | cons t l ih => exact (show Moved q (q.release t) from (of_vars take_vars).trans rfl).trans (ih _)

theorem tick (q : Queues M S T) : Moved q q.tick :=
  releases _ { q with now := q.now + 1, delay := q.delay.dropWhile fun p => p.2 ≤ q.now + 1 }

end Moved

/-! ## Functions that move tasks only -/

theorem reprio_words (q : Queues M S T) (x t : T) (p : Nat) : (q.reprio x t p).vars.words = q.vars.words := by
  have hresort : Moved (q.edit fun v => v.setPrio t p) ((q.edit fun v => v.setPrio t p).resort t) :=
    Moved.of_vars (resort_vars _ _)
  unfold Queues.reprio
  simp only
  split
  · split
    · exact hresort.words
    · exact ((hresort.trans (Moved.of_vars take_vars)).trans (Moved.dispatch _ _ _)).words
  · exact hresort.words

theorem finish_words (q : Queues M S T) (x : T) : (q.finish x).vars.words = q.vars.words :=
  (Moved.next _).words

theorem kill_words (q : Queues M S T) (t : T) (i : Nat) : (q.kill t i).vars.words = q.vars.words := by
  show (Vars.setActive (q.take t).vars i none).words = _
  rw [take_vars]
  rfl

theorem evtWait_words (q : Queues M S T) (x : T) (f : BitVec 16) (n : Nat) (b : Bool) :
    (q.evtWait x f n b).vars.words = q.vars.words := by
  unfold Queues.evtWait
  split <;> split
  · rfl
  · simp only
    split
    · rfl
    · exact (Moved.block _ _ _ _).words
  · rfl
  · simp only
    split
    · rfl
    · exact (Moved.block _ _ _ _).words

theorem evtSet_words (q : Queues M S T) (x t : T) (f : BitVec 16) :
    (q.evtSet x t f).vars.words = q.vars.words := by
  unfold Queues.evtSet
  simp only
  split
  · exact (Moved.dispatch _ _ _).words
  · rfl

theorem evtPsh_words (q : Queues M S T) (t : T) (f : BitVec 16) :
    (q.evtPsh t f).vars.words = q.vars.words := by
  unfold Queues.evtPsh
  simp only
  split <;> rfl

theorem swapRobin_words (q : Queues M S T) :
    q.swapRobin.vars.words = { q.vars.words with clock := q.swapRobin.vars.clock } := by
  unfold Queues.swapRobin
  split
  · split
    · rfl
    · rename_i x _ _
      show (Queues.take (q.edit fun v => { v with robin_task := none }) x).vars.words =
        ⟨_, _, _, _, (Queues.take (q.edit fun v => { v with robin_task := none }) x).vars.clock⟩
      rw [take_vars]
      rfl
  · rfl

theorem robin_words (q : Queues M S T) :
    q.robin.vars.words = { q.vars.words with clock := q.robin.vars.clock } := by
  unfold Queues.robin
  rw [swapRobin_words]
  split <;> rfl

/-- The tick does something to the clock only. -/
theorem systick_words (q : Queues M S T) (x : T) :
    (q.systick x).vars.words = { q.vars.words with clock := (q.systick x).vars.clock } := by
  have hmoved := ((Moved.tick ((q.toFront x).robin.edit fun v => { v with os_time := u32 (v.os_time + 1) })).trans
    (Moved.next _)).words
  have hrobin := robin_words (q.toFront x)
  have hclock : (q.systick x).vars.clock = _ := congrArg Words.clock hmoved
  rw [hclock]
  refine hmoved.trans ?_
  show ({ (q.toFront x).robin.vars.words with clock := _ } : Words M S T) = _
  rw [hrobin]
  rfl

/-! ## Mutexes and semaphores -/

/-- What a call for the mutex `m` does to it: taken, taken once more, or left. -/
theorem mutWait_words (q : Queues M S T) (x : T) (m : M) (n : Nat) :
    (q.mutWait x m n).vars.words =
      if q.vars.level m = 0 then
        { q.vars.words with
          level := Function.update q.vars.level m 1
          owner := Function.update q.vars.owner m (some x) }
      else if q.vars.owner m = some x then
        { q.vars.words with level := Function.update q.vars.level m (u16 (q.vars.level m + 1)) }
      else q.vars.words := by
  unfold Queues.mutWait
  split
  · rename_i hl
    show (q.vars.setMut m (u16 (q.vars.level m + 1)) (some x) _).words = _
    rw [hl]
    rfl
  · split
    · rfl
    · split
      · rfl
      · rw [(Moved.block _ _ _ _).words]
        show (q.inherit m x).vars.words = _
        rw [inherit_vars]
        rfl

/-- What the release of the mutex `m` does to it: nothing, one level less, or a new owner. -/
theorem mutRelease_words (q : Queues M S T) (x : T) (m : M) :
    (q.mutRelease x m).vars.words =
      if q.vars.level m = 0 ∨ q.vars.owner m ≠ some x then q.vars.words
      else if q.vars.level m - 1 ≠ 0 then
        { q.vars.words with level := Function.update q.vars.level m (q.vars.level m - 1) }
      else match q.queue (.mucb m) with
        | [] => { q.vars.words with level := Function.update q.vars.level m 0 }
        | t :: _ => { q.vars.words with
            level := Function.update q.vars.level m 1
            owner := Function.update q.vars.owner m (some t) } := by
  unfold Queues.mutRelease
  split
  · rfl
  · simp only
    split
    · rfl
    · rename_i hl
      cases hw : q.queue (.mucb m) with
      | nil =>
        simp only
        rw [(Moved.yieldTo _ _ _).words]
        show (q.vars.setLevel m (q.vars.level m - 1)).words = _
        rw [not_ne_iff.mp hl]
        rfl
      | cons t l =>
        simp only
        rw [(Moved.goOn _ _ _).words]
        show (((q.edit fun v => v.setLevel m (q.vars.level m - 1)).edit
          fun v => v.setPrio x (v.mut_prio m)).handOver m t).vars.words = _
        rw [handOver_eq]
        show (Vars.setMut (Vars.setRet (Vars.setPrio (q.take _).vars _ _) _ _) _ _ _ _).words = _
        rw [take_vars]
        rfl

theorem semSend_words (q : Queues M S T) (x : T) (s : S) :
    (q.semSend x s).vars.words = match q.queue (.scb s) with
      | [] => { q.vars.words with tokens := Function.update q.vars.tokens s (u16 (q.vars.tokens s + 1)) }
      | _ :: _ => q.vars.words := by
  unfold Queues.semSend
  cases q.queue (.scb s) with
  | nil => rfl
  | cons t l =>
    simp only
    rw [(Moved.dispatch _ _ _).words]
    show (Vars.setRet (q.take _).vars _ _).words = _
    rw [take_vars]
    rfl

theorem semPsh_words (q : Queues M S T) (s : S) :
    (q.semPsh s).vars.words = match q.queue (.scb s) with
      | [] => { q.vars.words with tokens := Function.update q.vars.tokens s (u16 (q.vars.tokens s + 1)) }
      | _ :: _ => q.vars.words := by
  unfold Queues.semPsh
  cases q.queue (.scb s) with
  | nil => rfl
  | cons t l =>
    show (Vars.setRet (Vars.setState (q.take _).vars _ _) _ _).words = _
    rw [take_vars]
    rfl

theorem semWait_words (q : Queues M S T) (x : T) (s : S) (n : Nat) :
    (q.semWait x s n).vars.words =
      if q.vars.tokens s ≠ 0 then
        { q.vars.words with tokens := Function.update q.vars.tokens s (q.vars.tokens s - 1) }
      else q.vars.words := by
  unfold Queues.semWait
  split
  · rfl
  · split
    · rfl
    · exact (Moved.block _ _ _ _).words

end Expedition.Rtx
