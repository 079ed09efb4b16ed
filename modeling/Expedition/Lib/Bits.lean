import Mathlib.Tactic.Ring

/-!
# Numbers as bit lists, least significant bit first

A serial register holds a list of bits whose head is the next bit out.  `ofBits` is the number a
list stands for and `toBits n x` are the `n` low bits of `x`; each undoes the other
(`toBits_ofBits`, `ofBits_toBits`), and both turn appending into splitting a number at a power of
two (`ofBits_append`, `toBits_add`).
-/

namespace Bits

def ofBits : List Bool → Nat
  | [] => 0
  | b :: bs => b.toNat + 2 * ofBits bs

def toBits : Nat → Nat → List Bool
  | 0, _ => []
  | n + 1, x => decide (x % 2 = 1) :: toBits n (x / 2)

@[simp] theorem length_toBits (n x : Nat) : (toBits n x).length = n := by
  induction n generalizing x with
  | zero => rfl
  | succ n ih => simp [toBits, ih]

theorem ofBits_append (a b : List Bool) : ofBits (a ++ b) = ofBits a + 2 ^ a.length * ofBits b := by
  induction a with
  | nil => simp [ofBits]
  | cons x a ih =>
    simp only [List.cons_append, ofBits, ih, List.length_cons, pow_succ]
    ring

theorem toNat_decide_mod_two (x : Nat) : (decide (x % 2 = 1)).toNat = x % 2 := by
  rcases Nat.mod_two_eq_zero_or_one x with h | h <;> simp [h]

theorem ofBits_toBits (n x : Nat) : ofBits (toBits n x) = x % 2 ^ n := by
  induction n generalizing x with
  | zero => simp [toBits, ofBits, Nat.mod_one]
  | succ n ih =>
    rw [toBits, ofBits, ih, toNat_decide_mod_two, Nat.pow_succ, Nat.mul_comm (2 ^ n) 2,
      Nat.mod_mul]

theorem toBits_ofBits (a : List Bool) : toBits a.length (ofBits a) = a := by
  induction a with
  | nil => rfl
  | cons x a ih =>
    have hx : x.toNat ≤ 1 := Bool.toNat_le x
    have hdiv : (x.toNat + 2 * ofBits a) / 2 = ofBits a := by omega
    have hmod : (x.toNat + 2 * ofBits a) % 2 = x.toNat := by omega
    simp only [List.length_cons, ofBits, toBits, hdiv, hmod, ih]
    cases x <;> rfl

theorem ofBits_lt (a : List Bool) : ofBits a < 2 ^ a.length := by
  have h := ofBits_toBits a.length (ofBits a)
  rw [toBits_ofBits] at h
  rw [h]
  exact Nat.mod_lt _ (Nat.two_pow_pos _)

theorem toBits_add (m n x : Nat) : toBits (m + n) x = toBits m x ++ toBits n (x / 2 ^ m) := by
  induction m generalizing x with
  | zero => simp [toBits]
  | succ m ih =>
    rw [Nat.succ_add, toBits, ih, toBits, Nat.div_div_eq_div_mul, ← Nat.pow_succ', List.cons_append]

theorem toBits_mod (n x : Nat) : toBits n (x % 2 ^ n) = toBits n x := by
  have h := toBits_ofBits (toBits n x)
  rwa [length_toBits, ofBits_toBits] at h

end Bits
