import Expedition.Lib.Exec

/-!
# Programs that call an interface

`Prog Op Res α` is a program that does its work by calls `o : Op`, each answered by a value of
`Res o`, and then returns an `α`.  A handler says what a call does to a state; `Prog.run` runs a
program with one.  The same program run with two handlers is how two levels of one design are compared:

* `Sim R m n` — where `n` returns, `m` returns the same and related states stay related.
* `Prog.sim` — handlers that simulate each other call by call do so for every program.
-/

namespace Exec

variable {S G ε α β : Type}

/-- Where `n` returns from `g`, `m` returns the same from every state related to `g`, and the states
stay related. -/
def Sim (R : S → G → Prop) (m : Exec S ε α) (n : Exec G ε α) : Prop :=
  ∀ s g a g', R s g → n g = (.ok a, g') → ∃ s', m s = (.ok a, s') ∧ R s' g'

variable {R : S → G → Prop} {m : Exec S ε α} {n : Exec G ε α} {k : α → Exec S ε β}
  {l : α → Exec G ε β}

theorem Sim.pure (a : α) : Sim R (pure a : Exec S ε α) (pure a) := by
  intro s g b g' hR hn
  cases hn
  exact ⟨s, rfl, hR⟩

theorem Sim.bind (hm : Sim R m n) (hk : ∀ a, Sim R (k a) (l a)) : Sim R (m >>= k) (n >>= l) := by
  intro s g b g' hR hn
  rw [run_bind] at hn
  cases hr : n g with
  | mk r g₁ =>
    rw [hr] at hn
    cases r with
    | ok a =>
      obtain ⟨s₁, hs₁, hR₁⟩ := hm s g a g₁ hR hr
      obtain ⟨s', hs', hR'⟩ := hk a s₁ g₁ b g' hR₁ hn
      exact ⟨s', by rw [run_bind_ok hs₁, hs'], hR'⟩
    | error e => cases hn

end Exec

/-- A program over the calls `Op`. -/
inductive Prog (Op : Type) (Res : Op → Type) (α : Type) : Type where
  | pure (a : α)
  | call (o : Op) (k : Res o → Prog Op Res α)

namespace Prog

variable {Op : Type} {Res : Op → Type} {S G ε α β : Type}

/-- Sequencing: go on with `k` where the program returns. -/
def andThen : Prog Op Res α → (α → Prog Op Res β) → Prog Op Res β
  | pure a, k => k a
  | call o l, k => call o fun r => (l r).andThen k

instance : Monad (Prog Op Res) where
  pure := pure
  bind := andThen

/-- One call. -/
def perform (o : Op) : Prog Op Res (Res o) := call o pure

/-- Run a program: every call is answered by the handler. -/
def run (handle : (o : Op) → Exec S ε (Res o)) : Prog Op Res α → Exec S ε α
  | pure a => Pure.pure a
  | call o k => handle o >>= fun r => (k r).run handle

variable {handle : (o : Op) → Exec S ε (Res o)} {p : Prog Op Res α} {k : α → Prog Op Res β}

theorem run_perform (o : Op) : (perform o : Prog Op Res (Res o)).run handle = handle o := by
  funext s
  show (handle o >>= fun r => Pure.pure r) s = handle o s
  rw [Exec.run_bind]
  rcases handle o s with ⟨r, s'⟩
  cases r <;> rfl

theorem run_bind : (p >>= k).run handle = p.run handle >>= fun a => (k a).run handle := by
  induction p with
  | pure a => rfl
  | call o l ih =>
    show (handle o >>= fun r => ((l r >>= k).run handle)) = _
    rw [run, Exec.bind_assoc]
    exact congrArg (handle o >>= ·) (funext ih)

/-- **Handlers that agree call by call agree on every program.** -/
theorem sim {R : S → G → Prop} {low : (o : Op) → Exec S ε (Res o)} {high : (o : Op) → Exec G ε (Res o)}
    (h : ∀ o, Exec.Sim R (low o) (high o)) (p : Prog Op Res α) :
    Exec.Sim R (p.run low) (p.run high) := by
  induction p with
  | pure a => exact Exec.Sim.pure a
  | call o l ih => exact Exec.Sim.bind (h o) ih

end Prog
