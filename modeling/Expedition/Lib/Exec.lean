import Mathlib.Tactic.Common

/-!
# Computations with state and failure, and their program logic

`Exec S ε α` is a computation over a state `S` that returns an `α` or fails with an `ε`; the
state reached is kept in both cases, because a program that stops on an error has still done
what it did before.

* `Triple P m Q E` — the Hoare triple: from a state in `P`, a return satisfies `Q` and a failure
  satisfies `E`.  `Keeps I E m` is the triple of an invariant.
* `Yields R m g a g'` — the simulation step: from every concrete state related to the abstract
  state `g`, `m` returns `a` in a state related to `g'`.  It is total: `m` does return.  `Fails` says
  that `m` fails.

The rules below are the ones a straight-line program with loops written as recursions needs.
-/

/-- A computation that reads and writes an `S` and may fail with an `ε`, keeping the state. -/
def Exec (S ε α : Type) : Type := S → Except ε α × S

namespace Exec

variable {S ε α β G : Type}

/-- Sequencing: a failure ends the computation in the state where it happened. -/
def andThen (m : Exec S ε α) (k : α → Exec S ε β) : Exec S ε β := fun s =>
  match m s with
  | (.ok a, s') => k a s'
  | (.error e, s') => (.error e, s')

instance : Monad (Exec S ε) where
  pure a := fun s => (.ok a, s)
  bind := andThen

/-- The current state. -/
def read : Exec S ε S := fun s => (.ok s, s)

/-- Replace the state. -/
def update (f : S → S) : Exec S ε Unit := fun s => (.ok (), f s)

/-- Stop with an error. -/
def fail (e : ε) : Exec S ε α := fun s => (.error e, s)

/-- Run `m` only if `c` is set. -/
def when (c : Bool) (m : Exec S ε Unit) : Exec S ε Unit := if c then m else pure ()

@[simp] theorem run_pure (a : α) (s : S) : (pure a : Exec S ε α) s = (.ok a, s) := rfl

@[simp] theorem run_read (s : S) : (read : Exec S ε S) s = (.ok s, s) := rfl

@[simp] theorem run_update (f : S → S) (s : S) : (update f : Exec S ε Unit) s = (.ok (), f s) := rfl

@[simp] theorem run_fail (e : ε) (s : S) : (fail e : Exec S ε α) s = (.error e, s) := rfl

theorem run_bind (m : Exec S ε α) (k : α → Exec S ε β) (s : S) :
    (m >>= k) s = match m s with
      | (.ok a, s') => k a s'
      | (.error e, s') => (.error e, s') := rfl

/-- Sequencing after a step whose run is known. -/
theorem run_bind_ok {m : Exec S ε α} {k : α → Exec S ε β} {s s' : S} {a : α}
    (h : m s = (.ok a, s')) : (m >>= k) s = k a s' := by
  rw [run_bind, h]

theorem bind_assoc {γ : Type} (m : Exec S ε α) (k : α → Exec S ε β) (l : β → Exec S ε γ) :
    (m >>= k >>= l) = m >>= fun a => k a >>= l := by
  funext s
  simp only [run_bind]
  rcases m s with ⟨r, s'⟩
  cases r <;> rfl

theorem pure_bind (a : α) (k : α → Exec S ε β) : ((pure a : Exec S ε α) >>= k) = k a := rfl

theorem bind_unit (m : Exec S ε Unit) : (m >>= fun _ => pure ()) = m := by
  funext s
  rw [run_bind]
  rcases m s with ⟨r, s'⟩
  cases r <;> rfl

theorem when_true (m : Exec S ε Unit) : when true m = m := rfl

/-! ## Hoare triples -/

/-- From a state in `P`, a return of `m` satisfies `Q` and a failure satisfies `E`. -/
structure Triple (P : S → Prop) (m : Exec S ε α) (Q : α → S → Prop) (E : ε → S → Prop) :
    Prop where
  run : ∀ s, P s → match m s with
    | (.ok a, s') => Q a s'
    | (.error e, s') => E e s'

section Triple

variable {P P' : S → Prop} {m : Exec S ε α} {k : α → Exec S ε β} {Q Q' : α → S → Prop}
  {R : β → S → Prop} {E : ε → S → Prop}

theorem Triple.bind (hm : Triple P m Q E) (hk : ∀ a, Triple (Q a) (k a) R E) :
    Triple P (m >>= k) R E := by
  refine ⟨fun s hs => ?_⟩
  have h := hm.run s hs
  rw [run_bind]
  cases hr : m s with
  | mk r s' =>
    rw [hr] at h
    cases r with
    | ok a => exact (hk a).run s' h
    | error e => exact h

theorem Triple.weaken (hm : Triple P m Q E) (hP : ∀ s, P' s → P s) (hQ : ∀ a s, Q a s → Q' a s) :
    Triple P' m Q' E := by
  refine ⟨fun s hs => ?_⟩
  have h := hm.run s (hP s hs)
  cases hr : m s with
  | mk r s' =>
    rw [hr] at h
    cases r with
    | ok a => exact hQ a s' h
    | error e => exact h

theorem Triple.pure {a : α} (h : ∀ s, P s → Q a s) : Triple P (pure a : Exec S ε α) Q E :=
  ⟨fun s hs => h s hs⟩

theorem Triple.update {f : S → S} {Q : Unit → S → Prop} (h : ∀ s, P s → Q () (f s)) :
    Triple P (update f) Q E :=
  ⟨fun s hs => h s hs⟩

theorem Triple.read {Q : S → S → Prop} (h : ∀ s, P s → Q s s) : Triple P read Q E :=
  ⟨fun s hs => h s hs⟩

theorem Triple.fail {e : ε} (h : ∀ s, P s → E e s) : Triple P (fail e : Exec S ε α) Q E :=
  ⟨fun s hs => h s hs⟩

theorem Triple.ite {c : Prop} [Decidable c] {n : Exec S ε α} (hm : c → Triple P m Q E)
    (hn : ¬ c → Triple P n Q E) : Triple P (if c then m else n) Q E := by
  split
  · rename_i h; exact hm h
  · rename_i h; exact hn h

/-- What a triple says of one run that returned. -/
theorem Triple.ok {s s' : S} {a : α} (hm : Triple P m Q E) (hs : P s) (hr : m s = (.ok a, s')) :
    Q a s' := by
  have h := hm.run s hs
  rw [hr] at h
  exact h

/-- What a triple says of one run that failed. -/
theorem Triple.error {s s' : S} {e : ε} (hm : Triple P m Q E) (hs : P s)
    (hr : m s = (.error e, s')) : E e s' := by
  have h := hm.run s hs
  rw [hr] at h
  exact h

end Triple

/-- `m` keeps the invariant `I`; its failures satisfy `E`. -/
def Keeps (I : S → Prop) (E : ε → S → Prop) (m : Exec S ε α) : Prop := Triple I m (fun _ => I) E

section Keeps

variable {I : S → Prop} {E : ε → S → Prop} {m n : Exec S ε α} {k : α → Exec S ε β}

theorem Keeps.bind (hm : Keeps I E m) (hk : ∀ a, Keeps I E (k a)) : Keeps I E (m >>= k) :=
  Triple.bind hm hk

theorem Keeps.pure (a : α) : Keeps I E (pure a : Exec S ε α) :=
  Triple.pure fun _ h => h

theorem Keeps.ite {c : Prop} [Decidable c] (hm : Keeps I E m) (hn : Keeps I E n) :
    Keeps I E (if c then m else n) :=
  Triple.ite (fun _ => hm) (fun _ => hn)

theorem Keeps.when {c : Bool} {m : Exec S ε Unit} (hm : Keeps I E m) : Keeps I E (when c m) :=
  Keeps.ite hm (Keeps.pure ())

theorem Keeps.update {f : S → S} (h : ∀ s, I s → I (f s)) : Keeps I E (update f) :=
  Triple.update h

theorem Keeps.fail {e : ε} (h : ∀ s, I s → E e s) : Keeps I E (fail e : Exec S ε α) :=
  Triple.fail h

end Keeps

/-! ## Simulation -/

/-- From every state related to `g`, `m` returns `a` in a state related to `g'`. -/
def Yields (R : S → G → Prop) (m : Exec S ε α) (g : G) (a : α) (g' : G) : Prop :=
  ∀ s, R s g → ∃ s', m s = (.ok a, s') ∧ R s' g'

section Yields

variable {R : S → G → Prop} {m : Exec S ε α} {k : α → Exec S ε β} {g g' g'' : G} {a : α} {b : β}

theorem Yields.pure (a : α) (g : G) : Yields R (pure a : Exec S ε α) g a g :=
  fun s hs => ⟨s, rfl, hs⟩

theorem Yields.bind (hm : Yields R m g a g') (hk : Yields R (k a) g' b g'') :
    Yields R (m >>= k) g b g'' := by
  intro s hs
  obtain ⟨s₁, h₁, hs₁⟩ := hm s hs
  obtain ⟨s₂, h₂, hs₂⟩ := hk s₁ hs₁
  exact ⟨s₂, by rw [run_bind_ok h₁, h₂], hs₂⟩

theorem Yields.when_true {m : Exec S ε Unit} (hm : Yields R m g () g') :
    Yields R (when true m) g () g' :=
  hm

theorem Yields.when_false {m : Exec S ε Unit} : Yields R (when false m) g () g :=
  Yields.pure () g

theorem Yields.update {f : S → S} (h : ∀ s, R s g → R (f s) g') :
    Yields R (update f : Exec S ε Unit) g () g' :=
  fun s hs => ⟨f s, rfl, h s hs⟩

end Yields

/-- From every state related to `g`, `m` fails with `e`. -/
def Fails (R : S → G → Prop) (m : Exec S ε α) (g : G) (e : ε) : Prop :=
  ∀ s, R s g → ∃ s', m s = (.error e, s')

section Fails

variable {R : S → G → Prop} {m : Exec S ε α} {k : α → Exec S ε β} {g g' : G} {a : α} {e : ε}

theorem Fails.fail (e : ε) (g : G) : Fails R (fail e : Exec S ε α) g e :=
  fun s _ => ⟨s, rfl⟩

theorem Fails.bind (hm : Yields R m g a g') (hk : Fails R (k a) g' e) : Fails R (m >>= k) g e := by
  intro s hs
  obtain ⟨s₁, h₁, hs₁⟩ := hm s hs
  obtain ⟨s₂, h₂⟩ := hk s₁ hs₁
  exact ⟨s₂, by rw [run_bind_ok h₁, h₂]⟩

end Fails

end Exec
