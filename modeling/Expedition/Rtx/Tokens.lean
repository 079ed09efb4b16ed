import Mathlib.Algebra.BigOperators.Fin
import Expedition.Rtx.Locks

/-!
# The semaphores of the kernel keep their tokens

* `gets`, `gives` — the calls that have come back with a token, and those that have returned one.
* `Stocked` — the tokens there are and those handed out are those there have been.
* `tokens_balance` — **no token is lost, made up or handed out twice.**
-/

namespace Expedition.Rtx

open Queues

variable {M S T : Type} [DecidableEq M] [DecidableEq S] [DecidableEq T]

/-- The call has got a token of the semaphore `r`. -/
def gets (r : S) : Service M S T × Nat → Bool
  | (.semaphoreWait r' _, n) => r' = r ∧ n ≠ 0
  | _ => false

/-- The call has returned a token to the semaphore `r`. -/
def gives (r : S) : Service M S T × Nat → Bool
  | (.semaphoreRelease r', n) => r' = r ∧ n = osOK
  | _ => false

/-- How many requests of interrupts to release the semaphore `r` have been served. -/
def Ledger.pushed (g : Ledger M S T) (r : S) : Nat := g.served.countP fun e => e.1 = some (.inr r)

/-- The calls of all threads that have come back and that meet `p`, counted. -/
def Ledger.total [Fintype T] (g : Ledger M S T) (p : Service M S T × Nat → Bool) : Nat := ∑ t, g.count p t

/-- A token comes to the semaphore `r`. -/
def Act.Restocks (r : S) (v : Vars M S T) : Option Nat → Act M S T → Prop
  | _, .service (.semaphoreRelease r') => r' = r
  | some idx, .pop => v.psq_count ≠ 0 ∧ v.psq_id idx = some (.inr r)
  | _, _ => False

variable {q : Queues M S T} {idle x t : T} {a : Act M S T} {popping : Option Nat} {g : Ledger M S T} {r : S}

omit [DecidableEq M] [DecidableEq T] in
theorem gets_eq_true {c : Service M S T} {n : Nat} (h : gets r (c, n) = true) :
    (∃ k, c = .semaphoreWait r k) ∧ n ≠ 0 := by
  cases c with
  | semaphoreWait r' k =>
    obtain ⟨rfl, hn⟩ := of_decide_eq_true h
    exact ⟨⟨k, rfl⟩, hn⟩
  | _ => cases h

omit [DecidableEq M] [DecidableEq T] in
theorem gives_eq_true {c : Service M S T} {n : Nat} (h : gives r (c, n) = true) :
    c = .semaphoreRelease r ∧ n = osOK := by
  cases c with
  | semaphoreRelease r' =>
    obtain ⟨rfl, hn⟩ := of_decide_eq_true h
    exact ⟨rfl, hn⟩
  | _ => cases h

/-! ## Who is told -/

omit [DecidableEq M] [DecidableEq S] [DecidableEq T] in
theorem hands_scb {v : Vars M S T} (h : a.Hands (.scb r) v popping) : a.Restocks r v popping := by
  cases a with
  | service c =>
    cases c with
    | semaphoreRelease r' => cases popping <;> exact Head.scb.inj h
    | mutexRelease m => cases h
    | _ => exact h.elim
  | pop =>
    cases popping with
    | none => exact h.elim
    | some idx =>
      obtain ⟨hc, s, he, hs⟩ := h
      obtain rfl := Head.scb.inj hs
      exact ⟨hc, he⟩
  | _ => exact h.elim

/-- A task that has waited is told of a token only where one comes and it is the first to wait. -/
theorem gets_other (hq : InOrder idle q popping) (hf : a.Fit idle q.vars) (hp : (a.prog popping).isSome)
    (hasks : Asks q g.last) (ht : ¬ a.Caller q.vars t)
    (h : (g.answer a q.vars (a.effect q popping).1.vars t).any (gets r) = true) :
    a.Restocks r q.vars popping ∧ ∃ l, q.queue (.scb r) = t :: l := by
  obtain ⟨⟨c, n⟩, hans, hget⟩ := (Option.any_eq_true _ _).mp h
  obtain ⟨⟨k, rfl⟩, hn⟩ := gets_eq_true hget
  obtain ⟨-, hlist, hsucc, htimeout | ⟨-, hwakes⟩⟩ := Act.answered hq hf hp hasks ht hans
  · exact absurd htimeout hn
  have hstate : ¬ (q.vars.state t = .WAIT_AND ∨ q.vars.state t = .WAIT_OR) := by
    rintro (hs | hs) <;> rw [hs] at hsucc <;> cases hsucc
  obtain ⟨hhands, hfirst⟩ := hwakes.first hq (fun h hh => (Option.some.inj (hlist h hh)).symm) hstate
  exact ⟨hands_scb hhands, hfirst⟩

/-- A release comes back at once. -/
theorem gives_other (hq : InOrder idle q popping) (hf : a.Fit idle q.vars) (hp : (a.prog popping).isSome)
    (hasks : Asks q g.last) (ht : ¬ a.Caller q.vars t) :
    (g.answer a q.vars (a.effect q popping).1.vars t).any (gives r) = false := by
  refine Bool.eq_false_iff.mpr fun h => ?_
  obtain ⟨⟨c, n⟩, hans, hgive⟩ := (Option.any_eq_true _ _).mp h
  obtain ⟨rfl, rfl⟩ := gives_eq_true hgive
  obtain ⟨hwaits, -⟩ := Act.answered hq hf hp hasks ht hans
  exact hwaits rfl

omit [DecidableEq M] in
/-- The first task that waits for a token is told that it has got one. -/
theorem gets_first {v : Vars M S T} (hasks : Asks q g.last) (ht : ¬ a.Caller q.vars t)
    (hplace : q.place t = some (.scb r)) (hs : q.vars.state t = .WAIT_SEM) (hup : v.up t) (hret : v.ret t = 1) :
    (g.answer a q.vars v t).any (gets r) = true := by
  have hwaits : (q.vars.state t).Waits := by
    rw [hs]
    exact .inr (.inr (.inr (.inl rfl)))
  obtain ⟨c, n, hc, -, -, -, hlist⟩ := hasks t hwaits
  unfold Ledger.answer
  rw [Act.own_eq_none ht]
  simp only
  rw [if_pos ⟨hwaits, hup⟩, hc, hret]
  have hthis := hlist _ hplace
  cases c with
  | semaphoreWait r' n' =>
    obtain rfl := Head.scb.inj (Option.some.inj hthis)
    exact decide_eq_true ⟨rfl, Nat.one_ne_zero⟩
  | mutexWait m n' => cases hthis
  | _ => cases hthis

/-! ## Tokens counted -/

section Totals

variable [Fintype T] {v v' : Vars M S T} {p : Service M S T × Nat → Bool}

omit [DecidableEq M] [DecidableEq S] in
theorem Ledger.total_none (h : ∀ t, (g.answer a v v' t).any p = false) :
    (g.note a popping v v').total p = g.total p := by
  unfold Ledger.total
  rw [Ledger.count_noted, add_none h]

omit [DecidableEq M] [DecidableEq S] in
theorem Ledger.total_one (hx : (g.answer a v v' x).any p = true)
    (h : ∀ t, t ≠ x → (g.answer a v v' t).any p = false) :
    (g.note a popping v v').total p = g.total p + 1 := by
  have hone : ∑ t, ((g.answer a v v' t).any p).toNat = 1 := by
    rw [Finset.sum_eq_single x (fun t _ ht => by rw [h t ht]; rfl) fun hm => absurd (Finset.mem_univ x) hm, hx]
    rfl
  unfold Ledger.total
  rw [Ledger.count_noted, Finset.sum_add_distrib, hone, Nat.add_comm]

end Totals

omit [DecidableEq M] in
theorem Ledger.pushed_note (v v' : Vars M S T) :
    (g.note a popping v v').pushed r =
      g.pushed r + ((a.serves v popping).any fun e => e.1 = some (.inr r)).toNat := by
  unfold Ledger.pushed Ledger.note
  rw [List.countP_append]
  cases a.serves v popping with
  | none => rfl
  | some e =>
    rw [Option.toList_some, List.countP_singleton, Option.any_some]
    cases decide (e.1 = some (Sum.inr r)) <;> rfl

theorem Service.effect_tokens {c : Service M S T} (hw : ∀ n, c ≠ .semaphoreWait r n) (hr : c ≠ .semaphoreRelease r)
    (q : Queues M S T) (x : T) : (c.effect q x).2.vars.tokens r = q.vars.tokens r := by
  have htokens := congrFun (congrArg Words.tokens (c.effect_words q x)) r
  refine htokens.trans ?_
  cases c with
  | mutexWait m n =>
    simp only [mutWait_words]
    split
    · rfl
    · split <;> rfl
  | mutexRelease m =>
    simp only [mutRelease_words]
    split
    · rfl
    · split
      · rfl
      · cases q.queue (.mucb m) <;> rfl
  | semaphoreWait s n =>
    have hne : r ≠ s := fun he => hw n (he ▸ rfl)
    simp only [semWait_words]
    split
    · exact Function.update_of_ne hne ..
    · rfl
  | semaphoreRelease s =>
    have hne : r ≠ s := fun he => hr (he ▸ rfl)
    simp only [semSend_words]
    split
    · rfl
    · cases q.queue (.scb s) with
      | nil => exact Function.update_of_ne hne ..
      | cons t l => rfl
  | _ => rfl

/-- Only the calls for its tokens and the requests to release it do anything to a semaphore. -/
theorem Act.effect_tokens (hw : ∀ n, a ≠ .service (.semaphoreWait r n)) (hr : ¬ a.Restocks r q.vars popping) :
    (a.effect q popping).1.vars.tokens r = q.vars.tokens r := by
  cases a with
  | service c =>
    cases popping with
    | some idx => rfl
    | none =>
      simp only [Act.effect]
      split
      · rename_i x _
        refine c.effect_tokens (fun n he => hw n (he ▸ rfl)) (fun he => hr ?_) q x
        rw [he]
        rfl
      · rfl
  | tick =>
    cases popping with
    | some idx => rfl
    | none =>
      simp only [Act.effect]
      split
      · rename_i x _
        exact congrFun (congrArg Words.tokens (systick_words q x)) r
      · rfl
  | raise t f =>
    show (q.raise t f).vars.tokens r = _
    unfold Queues.raise
    split
    · split <;> rfl
    · rfl
  | post s =>
    show (q.postSem s).vars.tokens r = _
    unfold Queues.postSem
    split <;> rfl
  | pendSV =>
    cases popping with
    | some idx => rfl
    | none =>
      simp only [Act.effect]
      split <;> rfl
  | pop =>
    cases popping with
    | none => rfl
    | some idx =>
      simp only [Act.effect]
      split
      · have hresume := (Moved.next (q.edit fun v => { v with psq_last := idx })).words
        exact congrFun (congrArg Words.tokens hresume) r
      · rename_i hc
        split
        · rename_i e he
          cases e with
          | inl t => exact congrFun (congrArg Words.tokens (evtPsh_words q t (q.vars.psq_arg idx))) r
          | inr s =>
            have hne : r ≠ s := fun h => hr ⟨hc, by rw [he, h]⟩
            refine (congrFun (congrArg Words.tokens (semPsh_words q s)) r).trans ?_
            cases q.queue (.scb s) with
            | nil => exact Function.update_of_ne hne ..
            | cons t l => rfl
        · rfl

/-! ## The invariant -/

section Stock

variable [Fintype T]

/-- The tokens of the semaphore `r` and those handed out are those there were and those returned, up to
those of requests served while the counter is full. -/
def Stocked (r : S) (q : Queues M S T) (g : Ledger M S T) : Prop :=
  g.stock r < 65536 → q.vars.tokens r < 65536 ∧ ∃ k ≤ g.pushed r,
    q.vars.tokens r + g.total (gets r) + 65536 * k = g.stock r + g.total (gives r) + g.pushed r

/-- An action that is not about the semaphore. -/
theorem Stocked.other (h : Stocked r q g) (hq : InOrder idle q popping) (hf : a.Fit idle q.vars)
    (hp : (a.prog popping).isSome) (hasks : Asks q g.last) (hw : ∀ n, a ≠ .service (.semaphoreWait r n))
    (hr : ¬ a.Restocks r q.vars popping) :
    Stocked r (a.effect q popping).1 (g.note a popping q.vars (a.effect q popping).1.vars) := by
  have hown : ∀ t c n, a.Caller q.vars t → g.answer a q.vars (a.effect q popping).1.vars t = some (c, n) →
      a = .service c := by
    intro t c n ht hans
    cases a with
    | service c' =>
      cases popping with
      | some idx => cases hp
      | none =>
        have hrun : q.vars.run = some t := ht
        simp only [Act.effect, hrun] at hans
        rw [Service.answer_own hrun] at hans
        split at hans
        · cases hans
        · rw [(Prod.mk.inj (Option.some.inj hans)).1]
    | _ => exact ht.elim
  have hserves : (a.serves q.vars popping).any (fun e => e.1 = some (.inr r)) = false := by
    refine Bool.eq_false_iff.mpr fun hany => ?_
    cases a with
    | pop =>
      cases popping with
      | none => cases hany
      | some idx =>
        by_cases hc : q.vars.psq_count = 0
        · simp only [Act.serves, Option.bind_some, if_pos hc] at hany
          cases hany
        · simp only [Act.serves, Option.bind_some, if_neg hc] at hany
          exact hr ⟨hc, of_decide_eq_true hany⟩
    | _ => cases hany
  unfold Stocked
  rw [Act.effect_tokens hw hr, Ledger.total_none, Ledger.total_none, Ledger.pushed_note, hserves]
  · exact h
  · intro t
    by_cases ht : a.Caller q.vars t
    · refine Bool.eq_false_iff.mpr fun hany => hr ?_
      obtain ⟨⟨c, n⟩, hans, hgive⟩ := (Option.any_eq_true _ _).mp hany
      obtain ⟨rfl, -⟩ := gives_eq_true hgive
      rw [hown t _ n ht hans]
      cases popping <;> rfl
    · exact gives_other hq hf hp hasks ht
  · intro t
    refine Bool.eq_false_iff.mpr fun hany => ?_
    by_cases ht : a.Caller q.vars t
    · obtain ⟨⟨c, n⟩, hans, hget⟩ := (Option.any_eq_true _ _).mp hany
      obtain ⟨⟨k, rfl⟩, -⟩ := gets_eq_true hget
      exact hw k (hown t _ n ht hans)
    · exact hr (gets_other hq hf hp hasks ht hany).1

/-- A call for a token takes one, where there is one, or leaves the semaphore. -/
theorem Stocked.wait {n : Nat} (h : Stocked r q g) (hq : InOrder idle q none)
    (hf : (Act.service (.semaphoreWait r n) : Act M S T).Fit idle q.vars) (hasks : Asks q g.last)
    (hr : q.vars.run = some x) : Stocked r ((Service.semaphoreWait r n).after q x)
      (g.note (.service (.semaphoreWait r n)) none q.vars ((Service.semaphoreWait r n).after q x).vars) := by
  have heffect := Service.effect_act (c := .semaphoreWait r n) hr
  have hother : ∀ t, t ≠ x → (g.answer (.service (.semaphoreWait r n)) q.vars
      ((Service.semaphoreWait r n).after q x).vars t).any (gets r) = false := by
    intro t ht
    refine Bool.eq_false_iff.mpr fun hany => ?_
    rw [← heffect] at hany
    exact (gets_other hq hf rfl hasks (Service.not_caller hr ht) hany).1
  have hgives : ∀ t, (g.answer (.service (.semaphoreWait r n)) q.vars
      ((Service.semaphoreWait r n).after q x).vars t).any (gives r) = false := by
    intro t
    by_cases ht : t = x
    · subst ht
      rw [Service.answer_own hr]
      split <;> rfl
    · rw [← heffect]
      exact gives_other hq hf rfl hasks (Service.not_caller hr ht)
  have htokens := congrFun (congrArg Words.tokens (semWait_words q x r (rt_ms2tick n))) r
  change ((Service.semaphoreWait r n).after q x).vars.tokens r = _ at htokens
  unfold Stocked
  rw [Ledger.total_none hgives, Ledger.pushed_note]
  by_cases hz : q.vars.tokens r = 0
  · have hkept : ((Service.semaphoreWait r n).after q x).vars.tokens r = q.vars.tokens r :=
      htokens.trans (congrFun (congrArg Words.tokens (if_neg (not_not.mpr hz))) r)
    rw [hkept, Ledger.total_none]
    · exact h
    · intro t
      by_cases ht : t = x
      · subst ht
        rw [Service.answer_own hr]
        split
        · rfl
        · exact decide_eq_false fun hc => hc.2 hz
      · exact hother t ht
  · have hgot : (g.answer (.service (.semaphoreWait r n)) q.vars
        ((Service.semaphoreWait r n).after q x).vars x).any (gets r) = true := by
      have hgoes : ¬ (((Service.semaphoreWait r n).effect q x).2.vars.state x).Waits := by
        intro hw
        obtain ⟨⟨x', hchosen, hr'⟩, -⟩ := hq
        obtain rfl := Option.some.inj (hr'.symm.trans hr)
        exact hz (Service.asleep hchosen hw).choose_spec.2
      rw [Service.answer_own hr, if_neg hgoes]
      exact decide_eq_true ⟨rfl, hz⟩
    have hless : ((Service.semaphoreWait r n).after q x).vars.tokens r = q.vars.tokens r - 1 :=
      (htokens.trans (congrFun (congrArg Words.tokens (if_pos hz)) r)).trans (Function.update_self ..)
    rw [hless, Ledger.total_one hgot hother]
    intro hstock
    obtain ⟨hlt, k, hk, hsum⟩ := h hstock
    refine ⟨by omega, k, hk, ?_⟩
    change _ = g.stock r + _ + _
    simp only [Act.serves, Option.any_none, Bool.toNat_false, Nat.add_zero]
    omega

/-- A release returns a token, or hands it to the first task that waits. -/
theorem Stocked.release (h : Stocked r q g) (hq : InOrder idle q none)
    (hf : (Act.service (.semaphoreRelease r) : Act M S T).Fit idle q.vars) (hasks : Asks q g.last)
    (hr : q.vars.run = some x) : Stocked r ((Service.semaphoreRelease r).after q x)
      (g.note (.service (.semaphoreRelease r)) none q.vars ((Service.semaphoreRelease r).after q x).vars) := by
  have heffect := Service.effect_act (c := .semaphoreRelease r) hr
  obtain ⟨⟨x', hchosen, hr'⟩, -⟩ := id hq
  obtain rfl := Option.some.inj (hr'.symm.trans hr)
  have hgoes : ¬ (((Service.semaphoreRelease r).effect q x').2.vars.state x').Waits := by
    intro hw
    obtain ⟨n, hsleep, -⟩ := Service.asleep hchosen hw
    cases hsleep.millisec
  have hanswer : g.answer (.service (.semaphoreRelease r)) q.vars ((Service.semaphoreRelease r).after q x').vars
      x' = some (.semaphoreRelease r, ((Service.semaphoreRelease r).effect q x').1) := by
    rw [Service.answer_own hr, if_neg hgoes]
  have hmine : (g.answer (.service (.semaphoreRelease r)) q.vars
      ((Service.semaphoreRelease r).after q x').vars x').any (gets r) = false := by
    rw [hanswer]
    rfl
  have hwoken : ∀ t, (g.answer (.service (.semaphoreRelease r)) q.vars
      ((Service.semaphoreRelease r).after q x').vars t).any (gets r) = true → t ≠ x' ∧
        ∃ l, q.queue (.scb r) = t :: l := by
    intro t hany
    have ht : t ≠ x' := by
      rintro rfl
      rw [hmine] at hany
      cases hany
    rw [← heffect] at hany
    exact ⟨ht, (gets_other hq hf rfl hasks (Service.not_caller hr ht) hany).2⟩
  have hother : ∀ t, t ≠ x' → (g.answer (.service (.semaphoreRelease r)) q.vars
      ((Service.semaphoreRelease r).after q x').vars t).any (gives r) = false := by
    intro t ht
    rw [← heffect]
    exact gives_other hq hf rfl hasks (Service.not_caller hr ht)
  unfold Stocked
  rw [Ledger.pushed_note]
  change g.stock r < 65536 → _
  intro hstock
  obtain ⟨hlt, k, hk, hsum⟩ := h hstock
  simp only [Act.serves, Option.any_none, Bool.toNat_false, Nat.add_zero]
  change _ ∧ ∃ k ≤ g.pushed r, _ = g.stock r + _ + _
  by_cases hfull : q.vars.tokens r = 0xFFFF
  · have hleft : (Service.semaphoreRelease r).effect q x' = (osErrorResource, q) := if_pos hfull
    have hkept : ((Service.semaphoreRelease r).after q x').vars.tokens r = q.vars.tokens r := by
      show ((Service.semaphoreRelease r).effect q x').2.vars.tokens r = _
      rw [hleft]
    rw [hkept, Ledger.total_none (p := gives r), Ledger.total_none]
    · exact ⟨hlt, k, hk, hsum⟩
    · intro t
      refine Bool.eq_false_iff.mpr fun hany => ?_
      have ht := (hwoken t hany).1
      rw [Ledger.answer_eq_none (Act.own_eq_none (Service.not_caller hr ht))] at hany
      · cases hany
      · intro hw hup
        refine hup.not_waits ?_
        show (((Service.semaphoreRelease r).effect q x').2.vars.state t).Waits
        rw [hleft]
        exact hw
    · intro t
      by_cases ht : t = x'
      · rw [ht, hanswer, hleft]
        exact decide_eq_false fun hc => absurd hc.2 (show osErrorResource ≠ osOK by decide)
      · exact hother t ht
  · have hdone : (Service.semaphoreRelease r).effect q x' = (osOK, q.semSend x' r) := if_neg hfull
    have hgave : (g.answer (.service (.semaphoreRelease r)) q.vars
        ((Service.semaphoreRelease r).after q x').vars x').any (gives r) = true := by
      rw [hanswer, hdone]
      exact decide_eq_true ⟨rfl, rfl⟩
    rw [Ledger.total_one hgave hother]
    have htokens : ((Service.semaphoreRelease r).after q x').vars.tokens r = (q.semSend x' r).vars.tokens r := by
      show ((Service.semaphoreRelease r).effect q x').2.vars.tokens r = _
      rw [hdone]
    have hwords := congrFun (congrArg Words.tokens (semSend_words q x' r)) r
    cases hw : q.queue (.scb r) with
    | nil =>
      rw [hw] at hwords
      have hmore : ((Service.semaphoreRelease r).after q x').vars.tokens r = q.vars.tokens r + 1 := by
        refine (htokens.trans hwords).trans ((Function.update_self ..).trans ?_)
        exact Nat.mod_eq_of_lt (by omega)
      rw [hmore, Ledger.total_none]
      · exact ⟨by omega, k, hk, by omega⟩
      · intro t
        refine Bool.eq_false_iff.mpr fun hany => ?_
        obtain ⟨-, l, hl⟩ := hwoken t hany
        rw [hw] at hl
        cases hl
    | cons t l =>
      rw [hw] at hwords
      have hplace := hq.first hw
      have htx : t ≠ x' := hchosen.ne_of_place hplace
      have hstate : q.vars.state t = .WAIT_SEM :=
        hchosen.sound.state_of_place hplace fun hm => htx (List.mem_singleton.mp hm)
      have hwake : Woken t q (q.semSend x' r) := semSend_wakes hw hstate
      have hret : (q.semSend x' r).vars.ret t = 1 := by
        have hsucc := hwake.ret
        rw [hstate] at hsucc
        exact (Option.some.inj hsucc).symm
      have hgot : (g.answer (.service (.semaphoreRelease r)) q.vars
          ((Service.semaphoreRelease r).after q x').vars t).any (gets r) = true := by
        refine gets_first hasks (Service.not_caller hr htx) hplace hstate ?_ ?_
        · show ((Service.semaphoreRelease r).effect q x').2.vars.up t
          rw [hdone]
          exact hwake.up
        · refine (Function.update_of_ne htx ..).trans ?_
          show ((Service.semaphoreRelease r).effect q x').2.vars.ret t = 1
          rw [hdone]
          exact hret
      rw [htokens.trans hwords, Ledger.total_one hgot fun u hu => ?_]
      · exact ⟨hlt, k, hk, by change q.vars.tokens r + _ + _ = _; omega⟩
      · refine Bool.eq_false_iff.mpr fun hany => hu ?_
        obtain ⟨-, l', hl'⟩ := hwoken u hany
        rw [hw] at hl'
        exact (List.cons.inj hl').1.symm

/-- A request of an interrupt returns a token, or hands it to the first task that waits. -/
theorem Stocked.served {idx : Nat} (h : Stocked r q g) (hq : InOrder idle q (some idx)) (hasks : Asks q g.last)
    (hc : q.vars.psq_count ≠ 0) (he : q.vars.psq_id idx = some (.inr r)) :
    Stocked r ((Act.pop : Act M S T).effect q (some idx)).1
      (g.note .pop (some idx) q.vars ((Act.pop : Act M S T).effect q (some idx)).1.vars) := by
  have heffect : ((Act.pop : Act M S T).effect q (some idx)).1 = q.serve (.inr r) (q.vars.psq_arg idx) := by
    simp only [Act.effect, if_neg hc, he]
  have hserves : ((Act.pop : Act M S T).serves q.vars (some idx)).any (fun e => e.1 = some (.inr r)) = true := by
    simp only [Act.serves, Option.bind_some, if_neg hc, he]
    exact decide_eq_true rfl
  have hwoken : ∀ t, (g.answer .pop q.vars ((Act.pop : Act M S T).effect q (some idx)).1.vars t).any
      (gets r) = true → ∃ l, q.queue (.scb r) = t :: l := fun t hany =>
    (gets_other (a := .pop) hq trivial rfl hasks not_false hany).2
  have hgives : ∀ t, (g.answer .pop q.vars ((Act.pop : Act M S T).effect q (some idx)).1.vars t).any
      (gives r) = false := fun t =>
    gives_other (a := .pop) hq trivial rfl hasks not_false
  unfold Stocked
  rw [Ledger.total_none hgives, Ledger.pushed_note, hserves]
  change g.stock r < 65536 → _ ∧ ∃ k ≤ g.pushed r + 1, _ = g.stock r + _ + (g.pushed r + 1)
  intro hstock
  obtain ⟨hlt, k, hk, hsum⟩ := h hstock
  have hwords := congrFun (congrArg Words.tokens (semPsh_words q r)) r
  have htokens : ((Act.pop : Act M S T).effect q (some idx)).1.vars.tokens r = (q.semPsh r).vars.tokens r := by
    rw [heffect]
    rfl
  cases hw : q.queue (.scb r) with
  | nil =>
    rw [hw] at hwords
    have hmore : ((Act.pop : Act M S T).effect q (some idx)).1.vars.tokens r = (q.vars.tokens r + 1) % 65536 :=
      (htokens.trans hwords).trans (Function.update_self ..)
    rw [hmore, Ledger.total_none]
    · -- a counter that is full wraps
      by_cases hfull : q.vars.tokens r = 65535
      · exact ⟨by omega, k + 1, by omega, by omega⟩
      · exact ⟨by omega, k, by omega, by omega⟩
    · intro t
      refine Bool.eq_false_iff.mpr fun hany => ?_
      obtain ⟨l, hl⟩ := hwoken t hany
      rw [hw] at hl
      cases hl
  | cons t l =>
    rw [hw] at hwords
    have hplace := hq.first hw
    have hstate : q.vars.state t = .WAIT_SEM := hq.1.state_of_place hplace List.not_mem_nil
    have hwake := semPsh_wakes hw hstate
    have hret : (q.semPsh r).vars.ret t = 1 := by
      have hsucc := hwake.ret
      rw [hstate] at hsucc
      exact (Option.some.inj hsucc).symm
    have hgot : (g.answer .pop q.vars ((Act.pop : Act M S T).effect q (some idx)).1.vars t).any (gets r) = true := by
      rw [heffect]
      exact gets_first hasks not_false hplace hstate hwake.up hret
    rw [htokens.trans hwords, Ledger.total_one hgot fun u hu => ?_]
    · exact ⟨hlt, k, by omega, by change q.vars.tokens r + _ + _ = _; omega⟩
    · refine Bool.eq_false_iff.mpr fun hany => hu ?_
      obtain ⟨l', hl'⟩ := hwoken u hany
      rw [hw] at hl'
      exact (List.cons.inj hl').1.symm

/-- **No token is lost, made up or handed out twice**: the tokens of a semaphore and those got from it are
those it had at the start and those returned.  Only a request of an interrupt that finds the counter full
makes it wrap. -/
theorem tokens_balance {s : Core (Kernel M S T)}
    (h : (audited idle).ReachIf (fun a p => Fits idle a p.1) (s, g)) (hr : g.stock r < 65536) :
    s.kernel.vars.tokens r < 65536 ∧ ∃ k ≤ g.pushed r, s.kernel.vars.tokens r + g.total (gets r) + 65536 * k =
      g.stock r + g.total (gives r) + g.pushed r := by
  obtain ⟨q, hk, -, hstocked⟩ := audited_keeps (J := fun q _ g => Stocked r q g)
    (fun q tokens hfresh _ hlt => by
      change tokens r < 65536 at hlt
      rw [hfresh.tokens]
      refine ⟨hlt, 0, Nat.zero_le _, ?_⟩
      have hnone : ∀ p, (Ledger.opened tokens : Ledger M S T).total p = 0 := fun p =>
        Finset.sum_eq_zero fun t _ => rfl
      rw [hnone, hnone]
      rfl)
    (fun q a popping g hq hf hp hasks hstocked => by
      by_cases hw : ∃ n, a = .service (.semaphoreWait r n)
      · obtain ⟨n, rfl⟩ := hw
        cases popping with
        | some idx => cases hp
        | none =>
          obtain ⟨⟨x, -, hrun⟩, -⟩ := id hq
          simp only [Act.effect, hrun]
          exact hstocked.wait hq hf hasks hrun
      · by_cases hr : a.Restocks r q.vars popping
        · cases a with
          | service c =>
            cases popping with
            | some idx => cases hp
            | none =>
              cases c with
              | semaphoreRelease r' =>
                obtain rfl : r' = r := hr
                obtain ⟨⟨x, -, hrun⟩, -⟩ := id hq
                simp only [Act.effect, hrun]
                exact hstocked.release hq hf hasks hrun
              | _ => exact hr.elim
          | pop =>
            cases popping with
            | none => cases hp
            | some idx => exact hstocked.served hq hasks hr.1 hr.2
          | _ => cases popping <;> exact hr.elim
        · exact hstocked.other hq hf hp hasks (fun n he => hw ⟨n, he⟩) hr) h
  rw [hk.1.vars]
  exact hstocked hr

end Stock

/-- The kernel `pair` with its history, after its upper thread has released the semaphore. -/
def pairReleased : Core (Kernel Unit Unit (Fin 3)) × Ledger Unit Unit (Fin 3) :=
  ((audited pairIdle).step (.service (.semaphoreRelease ())) (⟨pair, none⟩, .opened pair.vars.tokens)).get rfl

theorem pairReleased_step : (audited 2).step (.service (.semaphoreRelease ()))
    (⟨pair, none⟩, .opened pair.vars.tokens) = some pairReleased := (Option.some_get _).symm

theorem pair_release_fits : Fits (2 : Fin 3) (.service (.semaphoreRelease ())) ⟨pair, none⟩ :=
  ⟨by decide, fun _ _ => trivial⟩

theorem tokens_balance_pair : pairReleased.1.kernel.vars.tokens () < 65536 ∧ ∃ k ≤ pairReleased.2.pushed (),
    pairReleased.1.kernel.vars.tokens () + pairReleased.2.total (gets ()) + 65536 * k =
      pairReleased.2.stock () + pairReleased.2.total (gives ()) + pairReleased.2.pushed () :=
  have hreach : (audited 2).ReachIf (fun a p => Fits 2 a p.1) pairReleased :=
    .step (.start ⟨pair_start, rfl⟩) pair_release_fits pairReleased_step
  tokens_balance hreach (by decide)

example : pairReleased.1.kernel.vars.tokens () = 1 ∧ pairReleased.2.total (gives ()) = 1 := by decide

end Expedition.Rtx
