import Expedition.Lib.Ring
import Expedition.Rtx.Kernel

/-!
# The requests of the interrupts

`os_psq` is a ring buffer: an interrupt stores a request in the slot `first`, and `rt_pop_req` serves
the requests from `last` on.

* `Desk` — the ring buffer; `Desk.queue` — the requests in it, the oldest first.
* `Desk.Ring` — its indices fit together.
* `Desk.push_queue`, `Desk.pop_queue` — `rt_psq_enq` adds a request at the end, and what is served is
  the oldest.
-/

namespace Expedition.Rtx

variable {M S T : Type}

/-- `os_psq`. -/
structure Desk (S T : Type) where
  first : Nat
  last : Nat
  count : Nat
  id : Nat → Option (T ⊕ S)
  arg : Nat → BitVec 16

def Vars.desk (v : Vars M S T) : Desk S T := ⟨v.psq_first, v.psq_last, v.psq_count, v.psq_id, v.psq_arg⟩

namespace Desk

variable {d : Desk S T} {e : T ⊕ S} {arg : BitVec 16} {idx : Nat} {t : T}

/-- The slots, each with what is asked for and its argument. -/
def slot (d : Desk S T) (i : Nat) : Option (T ⊕ S) × BitVec 16 := (d.id i, d.arg i)

/-- The requests that are to be served, from the slot `idx` on. -/
def queue (d : Desk S T) (idx : Nat) : List (Option (T ⊕ S) × BitVec 16) :=
  Ring.entries os_fifo_size d.slot idx d.count

/-- A request that is to be served names the task `t`. -/
def Pending (d : Desk S T) (idx : Nat) (t : T) : Prop := ∃ arg, (some (.inl t), arg) ∈ d.queue idx

/-- The requests are those from `idx` on. -/
structure Ring (d : Desk S T) (idx : Nat) : Prop where
  lt : idx < os_fifo_size
  count : d.count ≤ os_fifo_size
  first : d.first = (idx + d.count) % os_fifo_size
  full : ∀ p ∈ d.queue idx, p.1 ≠ none

/-- The queue with one more request. -/
def push (d : Desk S T) (e : T ⊕ S) (arg : BitVec 16) : Desk S T where
  first := psq_next d.first
  last := d.last
  count := d.count + 1
  id := Function.update d.id d.first (some e)
  arg := Function.update d.arg d.first arg

/-- The queue without the request that has been served. -/
def pop (d : Desk S T) : Desk S T := { d with count := d.count - 1 }

theorem psq_next_eq {i : Nat} (hi : i < os_fifo_size) : psq_next i = (i + 1) % os_fifo_size := by
  unfold psq_next os_fifo_size at *
  split <;> omega

theorem push_slot (d : Desk S T) (e : T ⊕ S) (arg : BitVec 16) :
    (d.push e arg).slot = Function.update d.slot d.first (some e, arg) := by
  funext i
  show (Function.update d.id d.first (some e) i, Function.update d.arg d.first arg i) = _
  by_cases hi : i = d.first
  · subst hi
    simp only [Function.update_self]
  · simp only [Function.update_of_ne hi]
    rfl

/-- **A request goes to the end of the queue.** -/
theorem push_queue (hd : d.Ring idx) (hc : d.count < os_fifo_size) :
    (d.push e arg).queue idx = d.queue idx ++ [(some e, arg)] := by
  unfold queue
  rw [push_slot, hd.first]
  exact Ring.entries_push hc

theorem push_ring (hd : d.Ring idx) (hc : d.count < os_fifo_size) : (d.push e arg).Ring idx := by
  have hfirst : d.first < os_fifo_size := by
    rw [hd.first]
    exact Nat.mod_lt _ (by decide)
  refine ⟨hd.lt, hc, ?_, fun p hp => ?_⟩
  · show psq_next d.first = (idx + (d.count + 1)) % os_fifo_size
    rw [psq_next_eq hfirst, hd.first, Nat.mod_add_mod, Nat.add_assoc]
  · rw [push_queue hd hc] at hp
    rcases List.mem_append.mp hp with hp | hp
    · exact hd.full p hp
    · rw [List.mem_singleton.mp hp]
      exact Option.some_ne_none e

theorem pending_push (hd : d.Ring idx) (hc : d.count < os_fifo_size)
    (h : (d.push e arg).Pending idx t) : d.Pending idx t ∨ e = .inl t := by
  obtain ⟨a, ha⟩ := h
  rw [push_queue hd hc] at ha
  rcases List.mem_append.mp ha with ha | ha
  · exact .inl ⟨a, ha⟩
  · have he := congrArg Prod.fst (List.mem_singleton.mp ha)
    exact .inr (Option.some.inj he).symm

/-- **What is served is the oldest request.** -/
theorem pop_queue (hd : d.Ring idx) (hc : d.count ≠ 0) :
    d.queue idx = d.slot idx :: d.pop.queue (psq_next idx) := by
  obtain ⟨k, hk⟩ := Nat.exists_eq_succ_of_ne_zero hc
  have hpop : d.pop.queue (psq_next idx) = Ring.entries os_fifo_size d.slot (psq_next idx) k := by
    show Ring.entries os_fifo_size d.slot (psq_next idx) (d.count - 1) = _
    rw [hk]
    rfl
  rw [hpop, psq_next_eq hd.lt, queue, hk]
  exact Ring.entries_pop hd.lt

theorem pop_ring (hd : d.Ring idx) (hc : d.count ≠ 0) : d.pop.Ring (psq_next idx) := by
  have hcount := hd.count
  refine ⟨?_, ?_, ?_, fun p hp => hd.full p ?_⟩
  · rw [psq_next_eq hd.lt]
    exact Nat.mod_lt _ (by decide)
  · show d.count - 1 ≤ os_fifo_size
    omega
  · show d.first = (psq_next idx + (d.count - 1)) % os_fifo_size
    rw [psq_next_eq hd.lt, hd.first, Nat.mod_add_mod, show idx + 1 + (d.count - 1) = idx + d.count by omega]
  · rw [pop_queue hd hc]
    exact List.mem_cons_of_mem _ hp

theorem pending_pop (hd : d.Ring idx) (hc : d.count ≠ 0) (h : d.pop.Pending (psq_next idx) t) :
    d.Pending idx t := by
  obtain ⟨a, ha⟩ := h
  exact ⟨a, by rw [pop_queue hd hc]; exact List.mem_cons_of_mem _ ha⟩

theorem not_pending (hc : d.count = 0) : ¬ d.Pending idx t := by
  rintro ⟨a, ha⟩
  rw [queue, hc] at ha
  cases ha

/-- The request that is next. -/
theorem head (hd : d.Ring idx) (hc : d.count ≠ 0) : ∃ e, d.id idx = some e := by
  have hfull := hd.full (d.slot idx) (by rw [pop_queue hd hc]; exact List.mem_cons_self)
  exact Option.ne_none_iff_exists'.mp hfull

theorem pending_head (hd : d.Ring idx) (hc : d.count ≠ 0) (h : d.id idx = some (.inl t)) :
    d.Pending idx t := by
  refine ⟨d.arg idx, ?_⟩
  rw [pop_queue hd hc, slot, h]
  exact List.mem_cons_self

end Desk

end Expedition.Rtx
