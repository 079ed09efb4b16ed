import Expedition.Rtx.Ledger

/-!
# The mutexes of the kernel are recursive mutexes

What the threads have been told of their locks and releases is what a recursive mutex would have told
them, with direct hand-off to the first thread that waits.

* `Vars.mutex` — the mutex the counter and the owner stand for.
* `Balanced` — every thread holds a mutex as often as it has locked it more than released it.
* `mutexes_exclude` — **two threads never both hold a mutex, and no lock or release is lost.**
-/

namespace Expedition.Rtx

open Queues

variable {M S T : Type} [DecidableEq M] [DecidableEq S] [DecidableEq T]

omit [DecidableEq M] [DecidableEq S] [DecidableEq T] in
/-- The mutex `m`: free, or held by a thread a number of times. -/
def Vars.mutex (v : Vars M S T) (m : M) : Mutex T :=
  if v.level m = 0 then none else (v.owner m).map fun o => (o, v.level m)

/-- The call has locked the mutex `m`. -/
def locks (m : M) : Service M S T × Nat → Bool
  | (.mutexWait m' _, r) => m' = m ∧ r = osOK
  | _ => false

/-- The call has released the mutex `m`. -/
def unlocks (m : M) : Service M S T × Nat → Bool
  | (.mutexRelease m', r) => m' = m ∧ r = osOK
  | _ => false

/-- How often a thread holds the mutex `m`, going by what it has been told. -/
def Ledger.depth (g : Ledger M S T) (m : M) (t : T) : Nat := g.count (locks m) t - g.count (unlocks m) t

/-! ## Locks and releases counted -/

/-- Every thread holds the mutex as often as it has locked it more than released it. -/
def Balanced (μ : Mutex T) (l u : T → Nat) : Prop := ∃ depth, Mutex.Counts μ depth ∧ ∀ t, l t = u t + depth t

variable {μ μ' : Mutex T} {l u : T → Nat} {x : T}

theorem Balanced.lock (h : Balanced μ l u) (hm : Mutex.lock x μ = some μ') :
    Balanced μ' (Function.update l x (l x + 1)) u := by
  obtain ⟨depth, hd, heq⟩ := h
  refine ⟨_, hd.lock hm, fun t => ?_⟩
  by_cases ht : t = x
  · subst ht
    simp only [Function.update_self, heq]
    omega
  · rw [Function.update_of_ne ht, Function.update_of_ne ht, heq]

theorem Balanced.unlock (h : Balanced μ l u) (hm : Mutex.holder μ = some x) :
    Balanced (Mutex.unlock x μ) l (Function.update u x (u x + 1)) := by
  obtain ⟨depth, hd, heq⟩ := h
  have hpos := hd.holder hm
  obtain ⟨k, hk⟩ := Nat.exists_eq_add_of_lt hpos
  refine ⟨_, hd.unlock (k := k) (by omega), fun t => ?_⟩
  by_cases ht : t = x
  · subst ht
    simp only [Function.update_self, heq]
    omega
  · rw [Function.update_of_ne ht, Function.update_of_ne ht, heq]

/-! ## What is told of a mutex -/

variable {q : Queues M S T} {idle t run : T} {a : Act M S T} {popping : Option Nat} {g : Ledger M S T} {m : M}

omit [DecidableEq S] [DecidableEq T] in
theorem locks_eq_true {c : Service M S T} {r : Nat} (h : locks m (c, r) = true) :
    (∃ n, c = .mutexWait m n) ∧ r = osOK := by
  cases c with
  | mutexWait m' n =>
    obtain ⟨rfl, hr⟩ := of_decide_eq_true h
    exact ⟨⟨n, rfl⟩, hr⟩
  | _ => cases h

omit [DecidableEq S] [DecidableEq T] in
theorem unlocks_eq_true {c : Service M S T} {r : Nat} (h : unlocks m (c, r) = true) :
    c = .mutexRelease m ∧ r = osOK := by
  cases c with
  | mutexRelease m' =>
    obtain ⟨rfl, hr⟩ := of_decide_eq_true h
    exact ⟨rfl, hr⟩
  | _ => cases h

/-- A task that has waited is told of a lock only where the mutex is released and it is the first to wait. -/
theorem locks_other (hq : InOrder idle q popping) (hf : a.Fit idle q.vars) (hp : (a.prog popping).isSome)
    (hasks : Asks q g.last) (ht : ¬ a.Caller q.vars t)
    (h : (g.answer a q.vars (a.effect q popping).1.vars t).any (locks m) = true) :
    a = .service (.mutexRelease m) ∧ ∃ l, q.queue (.mucb m) = t :: l := by
  obtain ⟨⟨c, r⟩, hans, hlock⟩ := (Option.any_eq_true _ _).mp h
  obtain ⟨⟨n, rfl⟩, rfl⟩ := locks_eq_true hlock
  obtain ⟨-, hlist, hsucc, htimeout | ⟨-, hwakes⟩⟩ := Act.answered hq hf hp hasks ht hans
  · cases htimeout
  have hstate : ¬ (q.vars.state t = .WAIT_AND ∨ q.vars.state t = .WAIT_OR) := by
    rintro (hs | hs) <;> rw [hs] at hsucc <;> cases hsucc
  obtain ⟨hhands, hfirst⟩ := hwakes.first hq (fun h hh => (Option.some.inj (hlist h hh)).symm) hstate
  exact ⟨hands_mucb hhands, hfirst⟩

/-- A release comes back at once. -/
theorem unlocks_other (hq : InOrder idle q popping) (hf : a.Fit idle q.vars) (hp : (a.prog popping).isSome)
    (hasks : Asks q g.last) (ht : ¬ a.Caller q.vars t) :
    (g.answer a q.vars (a.effect q popping).1.vars t).any (unlocks m) = false := by
  refine Bool.eq_false_iff.mpr fun h => ?_
  obtain ⟨⟨c, r⟩, hans, hunlock⟩ := (Option.any_eq_true _ _).mp h
  obtain ⟨rfl, rfl⟩ := unlocks_eq_true hunlock
  obtain ⟨hwaits, -⟩ := Act.answered hq hf hp hasks ht hans
  exact hwaits rfl

/-- The call is about the mutex `m`. -/
def Service.About (m : M) : Service M S T → Prop
  | .mutexWait m' _ => m' = m
  | .mutexRelease m' => m' = m
  | _ => False

omit [DecidableEq M] [DecidableEq S] [DecidableEq T] in
theorem mutex_congr {v w : Vars M S T} (hl : w.level m = v.level m) (ho : w.owner m = v.owner m) :
    w.mutex m = v.mutex m := by
  unfold Vars.mutex
  rw [hl, ho]

omit [DecidableEq M] [DecidableEq S] [DecidableEq T] in
theorem mutex_of_words {v w : Vars M S T} (h : w.words = v.words) : w.mutex m = v.mutex m :=
  mutex_congr (congrFun (congrArg Words.level h) m) (congrFun (congrArg Words.owner h) m)

theorem Service.effect_mutex {c : Service M S T} (hc : ¬ c.About m) (q : Queues M S T) (x : T) :
    (c.effect q x).2.vars.mutex m = q.vars.mutex m := by
  have hwords := c.effect_words q x
  have hlevel := congrFun (congrArg Words.level hwords) m
  have howner := congrFun (congrArg Words.owner hwords) m
  cases c with
  | mutexWait m' n =>
    have hne : m ≠ m' := fun he => hc he.symm
    simp only [mutWait_words] at hlevel howner
    refine mutex_congr (hlevel.trans ?_) (howner.trans ?_)
    · split
      · exact Function.update_of_ne hne ..
      · split
        · exact Function.update_of_ne hne ..
        · rfl
    · split
      · exact Function.update_of_ne hne ..
      · split <;> rfl
  | mutexRelease m' =>
    have hne : m ≠ m' := fun he => hc he.symm
    simp only [mutRelease_words] at hlevel howner
    refine mutex_congr (hlevel.trans ?_) (howner.trans ?_)
    · split
      · rfl
      · split
        · exact Function.update_of_ne hne ..
        · cases q.queue (.mucb m') <;> exact Function.update_of_ne hne ..
    · split
      · rfl
      · split
        · rfl
        · cases q.queue (.mucb m') with
          | nil => rfl
          | cons t l => exact Function.update_of_ne hne ..
  | semaphoreWait s n =>
    simp only [semWait_words] at hlevel howner
    refine mutex_congr (hlevel.trans ?_) (howner.trans ?_) <;> split <;> rfl
  | semaphoreRelease s =>
    simp only [semSend_words] at hlevel howner
    refine mutex_congr (hlevel.trans ?_) (howner.trans ?_) <;> split <;> first | rfl | (cases q.queue (.scb s) <;> rfl)
  | _ => exact mutex_of_words hwords

/-- Only the calls about a mutex do anything to it. -/
theorem Act.effect_mutex (ha : ∀ c, a = .service c → ¬ c.About m) (q : Queues M S T) (popping : Option Nat) :
    (a.effect q popping).1.vars.mutex m = q.vars.mutex m := by
  cases a with
  | service c =>
    cases popping with
    | some idx => rfl
    | none =>
      simp only [Act.effect]
      split
      · rename_i x _
        exact c.effect_mutex (ha c rfl) q x
      · rfl
  | tick =>
    cases popping with
    | some idx => rfl
    | none =>
      simp only [Act.effect]
      split
      · rename_i x _
        have hwords := systick_words q x
        exact mutex_congr (congrFun (congrArg Words.level hwords) m) (congrFun (congrArg Words.owner hwords) m)
      · rfl
  | raise t f =>
    show (q.raise t f).vars.mutex m = _
    unfold Queues.raise
    split
    · split <;> rfl
    · rfl
  | post r =>
    show (q.postSem r).vars.mutex m = _
    unfold Queues.postSem
    split <;> rfl
  | pendSV =>
    cases popping with
    | some idx => rfl
    | none =>
      simp only [Act.effect]
      split <;> rfl
  | pop =>
    cases popping with
    | none => rfl
    | some idx =>
      simp only [Act.effect]
      split
      · have hmutex := mutex_of_words (m := m) (Moved.next (q.edit fun v => { v with psq_last := idx })).words
        exact hmutex
      · split
        · rename_i e _
          cases e with
          | inl t =>
            have hmutex := mutex_of_words (m := m) (evtPsh_words q t (q.vars.psq_arg idx))
            exact hmutex
          | inr r =>
            have hwords := semPsh_words q r
            have hlevel := congrFun (congrArg Words.level hwords) m
            have howner := congrFun (congrArg Words.owner hwords) m
            refine mutex_congr (hlevel.trans ?_) (howner.trans ?_) <;> cases q.queue (.scb r) <;> rfl
        · rfl

/-! ## The invariant -/

omit [DecidableEq T] in
/-- Counts that nothing is added to, -/
theorem add_none {b : T → Bool} (h : ∀ t, b t = false) (l : T → Nat) : (fun t => (b t).toNat + l t) = l := by
  funext t
  rw [h t, Bool.toNat_false, Nat.zero_add]

/-- and counts to which one task adds one. -/
theorem add_one {b : T → Bool} (hx : b x = true) (h : ∀ t, t ≠ x → b t = false) (l : T → Nat) :
    (fun t => (b t).toNat + l t) = Function.update l x (l x + 1) := by
  funext t
  by_cases ht : t = x
  · subst ht
    rw [hx, Function.update_self, Bool.toNat_true, Nat.add_comm]
  · rw [h t ht, Function.update_of_ne ht, Bool.toNat_false, Nat.zero_add]

/-- What the mutex `m` is and what the threads have been told of it. -/
def Kept (m : M) (q : Queues M S T) (g : Ledger M S T) : Prop :=
  Balanced (q.vars.mutex m) (g.count (locks m)) (g.count (unlocks m))

/-- An action that is not about the mutex. -/
theorem Kept.other (h : Kept m q g) (hq : InOrder idle q popping) (hf : a.Fit idle q.vars)
    (hp : (a.prog popping).isSome) (hasks : Asks q g.last) (ha : ∀ c, a = .service c → ¬ c.About m) :
    Kept m (a.effect q popping).1 (g.note a popping q.vars (a.effect q popping).1.vars) := by
  have hown : ∀ t c r, a.Caller q.vars t → g.answer a q.vars (a.effect q popping).1.vars t = some (c, r) →
      ¬ c.About m := by
    intro t c r ht hans
    cases a with
    | service c' =>
      cases popping with
      | some idx => cases hp
      | none =>
        have hr : q.vars.run = some t := ht
        simp only [Act.effect, hr] at hans
        rw [Service.answer_own hr] at hans
        split at hans
        · cases hans
        · obtain ⟨rfl, -⟩ := Prod.mk.inj (Option.some.inj hans)
          exact ha c' rfl
    | _ => exact ht.elim
  unfold Kept
  rw [Act.effect_mutex ha, Ledger.count_noted, Ledger.count_noted, add_none, add_none]
  · exact h
  · intro t
    by_cases ht : a.Caller q.vars t
    · refine Bool.eq_false_iff.mpr fun hany => ?_
      obtain ⟨⟨c, r⟩, hans, hunlock⟩ := (Option.any_eq_true _ _).mp hany
      obtain ⟨rfl, -⟩ := unlocks_eq_true hunlock
      exact hown t _ r ht hans rfl
    · exact unlocks_other hq hf hp hasks ht
  · intro t
    by_cases ht : a.Caller q.vars t
    · refine Bool.eq_false_iff.mpr fun hany => ?_
      obtain ⟨⟨c, r⟩, hans, hlock⟩ := (Option.any_eq_true _ _).mp hany
      obtain ⟨⟨n, rfl⟩, -⟩ := locks_eq_true hlock
      exact hown t _ r ht hans rfl
    · refine Bool.eq_false_iff.mpr fun hany => ?_
      obtain ⟨rfl, -⟩ := locks_other hq hf hp hasks ht hany
      exact ha _ rfl rfl

/-- A call for the mutex locks it, where it is free or the task's own, or leaves it. -/
theorem Kept.wait {n : Nat} (h : Kept m q g) (hq : InOrder idle q none)
    (hf : (Act.service (.mutexWait m n) : Act M S T).Fit idle q.vars) (hasks : Asks q g.last)
    (hr : q.vars.run = some x) : Kept m ((Service.mutexWait m n).after q x)
      (g.note (.service (.mutexWait m n)) none q.vars ((Service.mutexWait m n).after q x).vars) := by
  have heffect := Service.effect_act (c := .mutexWait m n) hr
  have hother : ∀ t, t ≠ x → (g.answer (.service (.mutexWait m n)) q.vars
      ((Service.mutexWait m n).after q x).vars t).any (locks m) = false := by
    intro t ht
    refine Bool.eq_false_iff.mpr fun hany => ?_
    rw [← heffect] at hany
    obtain ⟨hc, -⟩ := locks_other hq hf rfl hasks (Service.not_caller hr ht) hany
    cases hc
  have hunlocks : ∀ t, (g.answer (.service (.mutexWait m n)) q.vars
      ((Service.mutexWait m n).after q x).vars t).any (unlocks m) = false := by
    intro t
    by_cases ht : t = x
    · subst ht
      rw [Service.answer_own hr]
      split <;> rfl
    · rw [← heffect]
      exact unlocks_other hq hf rfl hasks (Service.not_caller hr ht)
  have hwords : ((Service.mutexWait m n).after q x).vars.words = _ := mutWait_words q x m (rt_ms2tick n)
  have hlevel := congrFun (congrArg Words.level hwords) m
  have howner := congrFun (congrArg Words.owner hwords) m
  change ((Service.mutexWait m n).after q x).vars.level m = _ at hlevel
  change ((Service.mutexWait m n).after q x).vars.owner m = _ at howner
  unfold Kept
  rw [Ledger.count_noted, Ledger.count_noted, add_none hunlocks]
  by_cases hfree : q.vars.level m = 0 ∨ q.vars.owner m = some x
  · have hok : ((Service.mutexWait m n).effect q x).1 = osOK := if_pos hfree
    have hgoes : ¬ (((Service.mutexWait m n).effect q x).2.vars.state x).Waits := by
      intro hw
      obtain ⟨⟨x', hchosen, hr'⟩, -⟩ := hq
      obtain rfl := Option.some.inj (hr'.symm.trans hr)
      obtain ⟨-, -, hret⟩ := Service.asleep hchosen hw
      rw [hok] at hret
      cases hret
    rw [add_one (x := x) ?_ hother]
    · refine Balanced.lock h ?_
      unfold Vars.mutex
      rw [hlevel, howner]
      by_cases hl : q.vars.level m = 0
      · simp only [hl, if_true, Function.update_self]
        rfl
      · have ho := hfree.resolve_left hl
        have hmax := (hf.2 x hr).1 ho
        simp only [hl, ho, if_false, if_true, Function.update_self, Vars.words]
        rw [u16, Nat.mod_eq_of_lt (by omega), if_neg (by omega)]
        simp [Mutex.lock]
    · rw [Service.answer_own hr, if_neg hgoes, hok]
      exact decide_eq_true ⟨rfl, rfl⟩
  · have hkept : ((Service.mutexWait m n).after q x).vars.mutex m = q.vars.mutex m := by
      rw [not_or] at hfree
      refine mutex_congr (hlevel.trans ?_) (howner.trans ?_)
      · rw [if_neg hfree.1, if_neg hfree.2]
        rfl
      · rw [if_neg hfree.1, if_neg hfree.2]
        rfl
    rw [add_none, hkept]
    · exact h
    · intro t
      by_cases ht : t = x
      · subst ht
        refine Bool.eq_false_iff.mpr fun hany => ?_
        obtain ⟨⟨c, r⟩, hans, hlock⟩ := (Option.any_eq_true _ _).mp hany
        rw [Service.answer_own hr] at hans
        split at hans
        · cases hans
        · obtain ⟨rfl, hres⟩ := Prod.mk.inj (Option.some.inj hans)
          rw [(locks_eq_true hlock).2] at hres
          simp only [Service.effect, if_neg hfree] at hres
          split at hres <;> cases hres
      · exact hother t ht

/-- A release by the task that holds the mutex unlocks it, and the first task that waits locks it at once. -/
theorem Kept.release (h : Kept m q g) (hq : InOrder idle q none)
    (hf : (Act.service (.mutexRelease m) : Act M S T).Fit idle q.vars) (hasks : Asks q g.last)
    (hr : q.vars.run = some x) : Kept m ((Service.mutexRelease m).after q x)
      (g.note (.service (.mutexRelease m)) none q.vars ((Service.mutexRelease m).after q x).vars) := by
  have heffect := Service.effect_act (c := .mutexRelease m) hr
  have hcaller : ∀ t, t ≠ x → ¬ (Act.service (.mutexRelease m) : Act M S T).Caller q.vars t := fun t ht =>
    Service.not_caller hr ht
  have hwoken : ∀ t, t ≠ x → (g.answer (.service (.mutexRelease m)) q.vars
      ((Service.mutexRelease m).after q x).vars t).any (locks m) = true → ∃ l, q.queue (.mucb m) = t :: l := by
    intro t ht hany
    rw [← heffect] at hany
    exact (locks_other hq hf rfl hasks (hcaller t ht) hany).2
  have hother : ∀ t, t ≠ x → (g.answer (.service (.mutexRelease m)) q.vars
      ((Service.mutexRelease m).after q x).vars t).any (unlocks m) = false := by
    intro t ht
    rw [← heffect]
    exact unlocks_other hq hf rfl hasks (hcaller t ht)
  obtain ⟨⟨x', hchosen, hr'⟩, -⟩ := id hq
  obtain rfl := Option.some.inj (hr'.symm.trans hr)
  have hgoes : ¬ (((Service.mutexRelease m).effect q x').2.vars.state x').Waits := by
    intro hw
    obtain ⟨n, hsleep, -⟩ := Service.asleep hchosen hw
    cases hsleep.millisec
  have hanswer : g.answer (.service (.mutexRelease m)) q.vars ((Service.mutexRelease m).after q x').vars x' =
      some (.mutexRelease m, ((Service.mutexRelease m).effect q x').1) := by
    rw [Service.answer_own hr, if_neg hgoes]
  have hmine : (g.answer (.service (.mutexRelease m)) q.vars
      ((Service.mutexRelease m).after q x').vars x').any (locks m) = false := by
    rw [hanswer]
    rfl
  have hwords : ((Service.mutexRelease m).after q x').vars.words = _ := mutRelease_words q x' m
  have hlevel := congrFun (congrArg Words.level hwords) m
  have howner := congrFun (congrArg Words.owner hwords) m
  change ((Service.mutexRelease m).after q x').vars.level m = _ at hlevel
  change ((Service.mutexRelease m).after q x').vars.owner m = _ at howner
  -- where nobody is woken, the states of the others are what they were
  have hasleep : (∀ t, t ≠ x' → ((Service.mutexRelease m).after q x').vars.state t = q.vars.state t) →
      ∀ t, (g.answer (.service (.mutexRelease m)) q.vars
        ((Service.mutexRelease m).after q x').vars t).any (locks m) = false := by
    intro hsame t
    by_cases ht : t = x'
    · exact ht ▸ hmine
    · rw [Ledger.answer_eq_none (Act.own_eq_none (hcaller t ht))]
      · rfl
      · intro hw hup
        refine hup.not_waits ?_
        rw [hsame t ht]
        exact hw
  unfold Kept
  rw [Ledger.count_noted, Ledger.count_noted]
  by_cases hheld : q.vars.level m = 0 ∨ q.vars.owner m ≠ some x'
  · have hleft : (Service.mutexRelease m).effect q x' = (osErrorResource, q) := by
      simp only [Service.effect, Queues.mutRelease, if_pos hheld]
    rw [if_pos hheld] at hlevel howner
    rw [add_none (hasleep fun t _ => ?_), add_none, mutex_congr hlevel howner]
    · exact h
    · intro t
      by_cases ht : t = x'
      · rw [ht, hanswer, hleft]
        exact decide_eq_false fun hc => absurd hc.2 (show osErrorResource ≠ osOK by decide)
      · exact hother t ht
    · show ((Service.mutexRelease m).effect q x').2.vars.state t = _
      rw [hleft]
  · obtain ⟨hl, ho⟩ := not_or.mp hheld
    have ho := not_ne_iff.mp ho
    have hmutex : q.vars.mutex m = some (x', q.vars.level m) := by
      unfold Vars.mutex
      rw [if_neg hl, ho]
      rfl
    have hunlock : (g.answer (.service (.mutexRelease m)) q.vars
        ((Service.mutexRelease m).after q x').vars x').any (unlocks m) = true := by
      rw [hanswer]
      refine decide_eq_true ⟨rfl, ?_⟩
      simp only [Service.effect, if_neg hheld]
    rw [add_one (x := x') hunlock hother]
    have hfreed := Balanced.unlock h (x := x') (by rw [hmutex]; rfl)
    rw [if_neg hheld] at hlevel howner
    by_cases hlast : q.vars.level m - 1 ≠ 0
    · rw [if_pos hlast] at hlevel howner
      have hsame : ∀ t, t ≠ x' → ((Service.mutexRelease m).after q x').vars.state t = q.vars.state t := by
        intro t _
        show (q.mutRelease x' m).vars.state t = _
        unfold Queues.mutRelease
        rw [if_neg hheld]
        simp only [if_pos hlast]
        rfl
      rw [add_none (hasleep hsame)]
      have hstep : ((Service.mutexRelease m).after q x').vars.mutex m = Mutex.unlock x' (q.vars.mutex m) := by
        have hlevel' : ((Service.mutexRelease m).after q x').vars.level m = q.vars.level m - 1 :=
          hlevel.trans (Function.update_self ..)
        have howner' : ((Service.mutexRelease m).after q x').vars.owner m = some x' := howner.trans ho
        rw [hmutex]
        unfold Vars.mutex
        rw [hlevel', howner', if_neg hlast]
        simp [Mutex.unlock, show ¬ q.vars.level m ≤ 1 by omega]
      rw [hstep]
      exact hfreed
    · rw [if_neg hlast] at hlevel howner
      have hone : q.vars.level m = 1 := by omega
      rw [hmutex, hone, Mutex.unlock_one] at hfreed
      cases hw : q.queue (.mucb m) with
      | nil =>
        rw [hw] at hlevel howner
        rw [add_none, show ((Service.mutexRelease m).after q x').vars.mutex m = none from if_pos ?_]
        · exact hfreed
        · exact hlevel.trans (Function.update_self ..)
        · intro t
          by_cases ht : t = x'
          · exact ht ▸ hmine
          · refine Bool.eq_false_iff.mpr fun hany => ?_
            obtain ⟨l, hl⟩ := hwoken t ht hany
            rw [hw] at hl
            cases hl
      | cons t l =>
        rw [hw] at hlevel howner
        have hplace := hq.first hw
        have htx : t ≠ x' := hchosen.ne_of_place hplace
        have hstate : q.vars.state t = .WAIT_MUT :=
          hchosen.sound.state_of_place hplace fun hm => htx (List.mem_singleton.mp hm)
        have hi : x' ≠ idle := fun he => hf.1 (he ▸ hr)
        have hwake := mutRelease_wakes hone ho hw hplace hstate (List.ne_nil_of_mem (hchosen.idle_ready hi))
        have hwaits : (q.vars.state t).Waits := by
          rw [hstate]
          exact .inr (.inr (.inr (.inr rfl)))
        obtain ⟨c, n, hc, hms, -, -, hlist⟩ := hasks t hwaits
        have hret : ((Service.mutexRelease m).after q x').vars.ret t = osOK := by
          refine (Function.update_of_ne htx ..).trans ?_
          have hsucc := hwake.ret
          rw [hstate] at hsucc
          exact (Option.some.inj hsucc).symm
        rw [add_one (x := t), show ((Service.mutexRelease m).after q x').vars.mutex m = some (t, 1) from ?_]
        · exact hfreed.lock rfl
        · unfold Vars.mutex
          rw [hlevel, howner]
          simp only [Function.update_self]
          rfl
        · unfold Ledger.answer
          rw [Act.own_eq_none (hcaller t htx)]
          simp only
          rw [if_pos ⟨hwaits, hwake.up⟩, hc, hret]
          have hthis := hlist _ hplace
          cases c with
          | mutexWait m' n' =>
            obtain rfl := Head.mucb.inj (Option.some.inj hthis)
            exact decide_eq_true ⟨rfl, rfl⟩
          | semaphoreWait s n' => cases hthis
          | _ => cases hthis
        · intro u hu
          by_cases hux : u = x'
          · exact hux ▸ hmine
          · refine Bool.eq_false_iff.mpr fun hany => hu ?_
            obtain ⟨l', hl'⟩ := hwoken u hux hany
            rw [hw] at hl'
            exact (List.cons.inj hl').1.symm

section Runs

variable [Fintype T] {s : Core (Kernel M S T)}

/-- **Two threads never both hold a mutex, and no lock or release is lost**: how often a thread has been told
that it locked the mutex less how often that it released it is how deep it holds it, and the mutex says so. -/
theorem mutexes_exclude (h : (audited idle).ReachIf (fun a p => Fits idle a p.1) (s, g)) (m : M) :
    (∀ t, g.count (locks m) t = g.count (unlocks m) t + g.depth m t) ∧
      Mutex.Counts (s.kernel.vars.mutex m) (g.depth m) ∧
      ∀ t u, 0 < g.depth m t → 0 < g.depth m u → t = u := by
  obtain ⟨q, hk, -, hkept⟩ := audited_keeps (J := fun q _ g => Kept m q g)
    (fun q tokens hfresh _ => by
      refine ⟨fun _ => 0, ?_, fun _ => rfl⟩
      rw [show q.vars.mutex m = none from if_pos (hfresh.level m)]
      exact .free fun _ => rfl)
    (fun q a popping g hq hf hp hasks hkept => by
      by_cases ha : ∃ c : Service M S T, a = .service c ∧ c.About m
      · obtain ⟨c, rfl, hc⟩ := ha
        cases popping with
        | some idx => cases hp
        | none =>
          obtain ⟨⟨x, -, hr⟩, -⟩ := id hq
          simp only [Act.effect, hr]
          cases c with
          | mutexWait m' n =>
            obtain rfl : m' = m := hc
            exact hkept.wait hq hf hasks hr
          | mutexRelease m' =>
            obtain rfl : m' = m := hc
            exact hkept.release hq hf hasks hr
          | _ => exact hc.elim
      · exact hkept.other hq hf hp hasks fun c hac hc => ha ⟨c, hac, hc⟩) h
  obtain ⟨depth, hcounts, heq⟩ := hkept
  have hdepth : g.depth m = depth := by
    funext t
    unfold Ledger.depth
    rw [heq t]
    omega
  rw [hdepth, hk.1.vars]
  exact ⟨heq, hcounts, fun t u => hcounts.unique⟩

end Runs

/-- The kernel `pair` with its history, after its upper thread has asked for the mutex. -/
def pairLocked : Core (Kernel Unit Unit (Fin 3)) × Ledger Unit Unit (Fin 3) :=
  ((audited pairIdle).step (.service (.mutexWait () 10)) (⟨pair, none⟩, .opened pair.vars.tokens)).get rfl

theorem pairLocked_step : (audited 2).step (.service (.mutexWait () 10))
    (⟨pair, none⟩, .opened pair.vars.tokens) = some pairLocked := (Option.some_get _).symm

theorem pair_lock_fits : Fits (2 : Fin 3) (.service (.mutexWait () 10)) ⟨pair, none⟩ :=
  ⟨by decide, fun _ _ => ⟨fun _ => by decide, fun _ h => absurd rfl h⟩⟩

theorem mutexes_exclude_pair :
    (∀ t, pairLocked.2.count (locks ()) t = pairLocked.2.count (unlocks ()) t + pairLocked.2.depth () t) ∧
      Mutex.Counts (pairLocked.1.kernel.vars.mutex ()) (pairLocked.2.depth ()) ∧
      ∀ t u, 0 < pairLocked.2.depth () t → 0 < pairLocked.2.depth () u → t = u :=
  have hreach : (audited 2).ReachIf (fun a p => Fits 2 a p.1) pairLocked :=
    .step (.start ⟨pair_start, rfl⟩) pair_lock_fits pairLocked_step
  mutexes_exclude hreach ()

example : pairLocked.2.depth () 1 = 1 := by decide

end Expedition.Rtx
