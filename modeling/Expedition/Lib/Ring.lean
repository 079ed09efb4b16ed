import Mathlib.Data.List.Basic
import Mathlib.Logic.Function.Basic
import Mathlib.Tactic.Common

/-!
# Ring buffers

A queue kept in `n` slots that are used round and round: the entries are those of the `k` slots from
slot `i` on.

* `entries n slot i k` — the queue, the oldest entry first.
* `entries_push` — storing into the first slot behind the entries adds one at the end.
* `entries_pop` — moving the start to the next slot takes the oldest away.
-/

namespace Ring

variable {α : Type} {n i k : Nat} {slot : Nat → α} {a : α}

/-- The `k` entries from the slot `i` on. -/
def entries (n : Nat) (slot : Nat → α) (i k : Nat) : List α := (List.range k).map fun j => slot ((i + j) % n)

/-- Fewer than `n` steps on there is another slot. -/
theorem slot_ne {j : Nat} (hj : j < k) (hk : k < n) : (i + j) % n ≠ (i + k) % n := by
  intro he
  have h := Nat.div_add_mod (i + j) n
  have h' := Nat.div_add_mod (i + k) n
  rw [he] at h
  have hdiv : (i + k) / n = (i + j) / n := by
    have hle : (i + j) / n ≤ (i + k) / n := Nat.div_le_div_right (by omega)
    by_contra hne
    have hlt : (i + j) / n + 1 ≤ (i + k) / n := by omega
    have hmul : n * ((i + j) / n + 1) ≤ n * ((i + k) / n) := Nat.mul_le_mul_left n hlt
    rw [Nat.mul_add, Nat.mul_one] at hmul
    omega
  rw [hdiv] at h'
  omega

/-- An entry is stored behind the last one, where there is room. -/
theorem entries_push (hk : k < n) :
    entries n (Function.update slot ((i + k) % n) a) i (k + 1) = entries n slot i k ++ [a] := by
  unfold entries
  rw [List.range_succ, List.map_append]
  congr 1
  · refine List.map_congr_left fun j hj => ?_
    exact Function.update_of_ne (slot_ne (List.mem_range.mp hj) hk) ..
  · simp

/-- The oldest entry, and the others. -/
theorem entries_pop (hi : i < n) :
    entries n slot i (k + 1) = slot i :: entries n slot ((i + 1) % n) k := by
  unfold entries
  rw [List.range_succ_eq_map, List.map_cons, List.map_map, Nat.add_zero, Nat.mod_eq_of_lt hi]
  congr 1
  refine List.map_congr_left fun j _ => ?_
  show slot ((i + (j + 1)) % n) = slot (((i + 1) % n + j) % n)
  rw [Nat.mod_add_mod, show i + (j + 1) = i + 1 + j by omega]

end Ring
