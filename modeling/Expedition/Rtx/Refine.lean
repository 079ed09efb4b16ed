import Expedition.Rtx.Chains

/-!
# Every function of `rt_List.c` refines a list function

One lemma for each call of `Op`: where the lists do not refuse it, the pointers follow.
-/

namespace Expedition.Rtx

open Exec Linked Queues

variable {M S T : Type} [DecidableEq M] [DecidableEq S] [DecidableEq T] [Fintype T]

/-- The links of `k` are those of the lists `q`, and no task is past due. -/
def Rel (k : Kernel M S T) (q : Queues M S T) : Prop := Rep k q ∧ ∀ p ∈ q.delay, q.now < p.2

variable {k k' : Kernel M S T} {q : Queues M S T} {h : Head M S} {t : T} {l l₁ l₂ : List T}

/-! ## Puts -/

omit [DecidableEq T] in
theorem listFuel_lt {l : List T} (hl : l.Nodup) : l.length < listFuel T :=
  Nat.lt_succ_of_le hl.length_le_card

omit [DecidableEq M] [DecidableEq S] [DecidableEq T] [Fintype T] in
/-- The search of `rt_put_prio` passes the tasks of the same or a higher priority. -/
theorem put_prio_search_run {prio n : Nat} {p : XCB M S T} (hl : Chain XCB.tcb k.p_lnk p l)
    (hn : l.length < n) : rt_put_prio.search prio n p k =
      (.ok (lastCell .tcb p (l.takeWhile fun u => prio ≤ k.vars.prio u)), k) := by
  induction l generalizing p n with
  | nil =>
    cases n with
    | zero => cases hn
    | succ n =>
      have hp : k.p_lnk p = none := hl
      simp only [rt_put_prio.search, run_bind_ok (run_read k), hp]
      rfl
  | cons u l ih =>
    cases n with
    | zero => cases hn
    | succ n =>
      simp only [rt_put_prio.search, run_bind_ok (run_read k), hl.1, List.takeWhile_cons]
      by_cases hu : prio ≤ k.vars.prio u
      · rw [if_pos hu, ih hl.2 (by simpa using hn)]
        simp [hu, lastCell]
      · rw [if_neg hu]
        simp [hu, lastCell]

/-- The heap `rt_put_prio` leaves. -/
theorem put_prio_run {p : XCB M S T}
    (hs : rt_put_prio.search (k.vars.prio t) (listFuel T) (.head h) k = (.ok p, k)) :
    ∃ k', rt_put_prio h t k = (.ok (), k') ∧
      k'.p_lnk = Function.update (Function.update k.p_lnk (.tcb t) (k.p_lnk p)) p (some t) ∧
      k'.p_rlnk = Function.update (match h.sem_mbx, k.p_lnk p with
        | true, some u => Function.update k.p_rlnk u (some (.tcb t))
        | _, _ => k.p_rlnk) t (if h.sem_mbx then some p else none) ∧
      k'.p_dlnk = k.p_dlnk ∧ k'.p_blnk = k.p_blnk ∧ k'.delta_time = k.delta_time ∧ k'.vars = k.vars := by
  unfold rt_put_prio
  rw [run_bind_ok (run_read k), run_bind_ok hs]
  cases h.sem_mbx with
  | false => exact ⟨_, rfl, rfl, rfl, rfl, rfl, rfl, rfl⟩
  | true =>
    cases hp : k.p_lnk p with
    | none => exact ⟨_, rfl, rfl, rfl, rfl, rfl, rfl, rfl⟩
    | some u => exact ⟨_, rfl, rfl, rfl, rfl, rfl, rfl, rfl⟩

/-- `rt_put_prio` puts a task that is in no list where its priority belongs. -/
theorem put_prio_rep (hk : Rep k q) (ht : q.place t = none) :
    ∃ k', rt_put_prio h t k = (.ok (), k') ∧ Rep k' (q.put h t) ∧ k'.p_dlnk = k.p_dlnk ∧
      k'.delta_time = k.delta_time := by
  have hsplit := List.takeWhile_append_dropWhile (p := fun u => q.vars.prio t ≤ q.vars.prio u)
    (l := q.queue h)
  have hs : rt_put_prio.search (k.vars.prio t) (listFuel T) (.head h) k = _ :=
    put_prio_search_run (hk.links h) (listFuel_lt (hk.wf.nodup h))
  rw [hk.vars] at hs
  obtain ⟨k', hrun, hlnk, hrlnk, hrest⟩ := put_prio_run (h := h) (t := t) (by rw [hk.vars]; exact hs)
  generalize hl₁ : (q.queue h).takeWhile (fun u => q.vars.prio t ≤ q.vars.prio u) = l₁ at *
  generalize hl₂ : (q.queue h).dropWhile (fun u => q.vars.prio t ≤ q.vars.prio u) = l₂ at *
  have hat : k.p_lnk (lastCell .tcb (.head h) l₁) = l₂.head? :=
    (hsplit ▸ hk.links h : Chain XCB.tcb k.p_lnk (.head h) (l₁ ++ l₂)).at
  have hne : ∀ u ∈ l₂.head?, u ≠ t := by
    rintro u hu rfl
    refine hk.wf.out ht h ?_
    rw [← hsplit]
    exact List.mem_append_right _ (List.mem_of_mem_head? hu)
  refine ⟨k', hrun, ?_, hrest.1, hrest.2.2.1⟩
  have hput : q.put h t = q.enlist h t (l₁ ++ t :: l₂) := by
    rw [Queues.put, putPrio, hl₁, hl₂]
  rw [hput]
  refine hk.enlist ht hsplit.symm ⟨hlnk, by rw [hrlnk, Function.update_self], fun hs u hu => ?_,
    fun u hu hb => ?_, hrest⟩
  · rw [hrlnk, Function.update_of_ne (hne u hu), hs, hat, Option.mem_def.mp hu]
    exact Function.update_self ..
  · rw [hrlnk, Function.update_of_ne hu, hat]
    cases hs : h.sem_mbx with
    | false => rfl
    | true =>
      cases hv : l₂.head? with
      | none => rfl
      | some v =>
        have huv : u ≠ v := by
          rintro rfl
          exact hb hs hv
        exact Function.update_of_ne huv ..

omit [Fintype T] in
theorem put_rdy_first_rep (hk : Rep k q) (ht : q.place t = none) :
    ∃ k', rt_put_rdy_first t k = (.ok (), k') ∧ Rep k' (q.enlist .rdy t (t :: q.queue .rdy)) := by
  refine ⟨_, rfl, hk.enlist ht (List.nil_append _).symm ⟨rfl, Function.update_self .., ?_, ?_, rfl, rfl, rfl, rfl⟩⟩
  · intro hs
    cases hs
  · intro u hu _
    exact Function.update_of_ne hu ..

omit [Fintype T] in
theorem put_only_rep (hk : Rep k q) (hq : q.queue h = []) (ht : q.place t = none)
    (hs : h.sem_mbx = true) :
    ∃ k', put_only h t k = (.ok (), k') ∧ Rep k' (q.enlist h t [t]) := by
  refine ⟨_, rfl, hk.enlist ht (hq.trans (List.nil_append []).symm) ⟨?_, ?_, ?_, ?_, rfl, rfl, rfl, rfl⟩⟩
  · have hnone : k.p_lnk (.head h) = none := by rw [(hk.links h).head?, hq]; rfl
    show Function.update (Function.update k.p_lnk (.head h) (some t)) (.tcb t) none = _
    rw [Function.update_comm (by simp), show lastCell XCB.tcb (.head h) [] = .head h from rfl, hnone]
  · rw [if_pos hs]
    exact Function.update_self ..
  · intro _ u hu
    cases hu
  · intro u hu _
    exact Function.update_of_ne hu ..

/-! ## Gets -/

omit [Fintype T] in
/-- The heap `rt_get_first` leaves. -/
theorem get_first_run (hf : k.p_lnk (.head h) = some t) :
    ∃ k', rt_get_first h k = (.ok t, k') ∧
      (∀ n, n ≠ .tcb t → k'.p_lnk n = Function.update k.p_lnk (.head h) (k.p_lnk (.tcb t)) n) ∧
      k'.p_rlnk = (match h.sem_mbx, k.p_lnk (.tcb t) with
        | true, some u => Function.update (Function.update k.p_rlnk u (some (.head h))) t none
        | true, none => Function.update k.p_rlnk t none
        | false, _ => k.p_rlnk) ∧
      k'.p_dlnk = k.p_dlnk ∧ k'.p_blnk = k.p_blnk ∧ k'.delta_time = k.delta_time ∧ k'.vars = k.vars := by
  unfold rt_get_first
  rw [run_bind_ok (run_read k), hf, run_bind_ok (deref_some t k)]
  have hother : ∀ n, n ≠ XCB.tcb t →
      Function.update (Function.update k.p_lnk (.head h) (k.p_lnk (.tcb t))) (.tcb t) none n =
        Function.update k.p_lnk (.head h) (k.p_lnk (.tcb t)) n :=
    fun n hn => Function.update_of_ne hn ..
  cases h.sem_mbx with
  | false => exact ⟨_, rfl, hother, rfl, rfl, rfl, rfl, rfl⟩
  | true =>
    cases hp : k.p_lnk (.tcb t) with
    | none =>
      refine ⟨_, rfl, ?_, rfl, rfl, rfl, rfl, rfl⟩
      intro n _
      rfl
    | some u =>
      rw [hp] at hother
      refine ⟨_, rfl, ?_, rfl, rfl, rfl, rfl, rfl⟩
      exact hother

omit [Fintype T] in
/-- `rt_get_first` takes the first task. -/
theorem get_first_rep (hk : Rep k q) (hq : q.queue h = t :: l) :
    ∃ k', rt_get_first h k = (.ok t, k') ∧ Rep k' (q.take t) := by
  have hlinks := hk.links h
  rw [hq] at hlinks
  have hnext : k.p_lnk (.tcb t) = l.head? := hlinks.2.head?
  have hq' : q.queue h = [] ++ t :: l := hq
  obtain ⟨hplace, -, htl, -⟩ := hk.wf.split hq'
  obtain ⟨k', hrun, hlnk, hrlnk, hrest⟩ := get_first_run hlinks.1
  rw [hnext] at hrlnk
  refine ⟨k', hrun, hk.take_clear hq' ⟨hlnk, fun hs u hu => ?_, fun u hu hb => ?_, hrest⟩ ?_⟩
  · have hut : u ≠ t := fun e => htl (e ▸ List.mem_of_mem_head? hu)
    rw [hrlnk, hs, Option.mem_def.mp hu]
    show Function.update (Function.update k.p_rlnk u _) t none u = _
    rw [Function.update_of_ne hut, Function.update_self]
    rfl
  · rw [hrlnk]
    cases hs : h.sem_mbx with
    | false => rfl
    | true =>
      cases hv : l.head? with
      | none => exact Function.update_of_ne hu ..
      | some v =>
        have huv : u ≠ v := by
          rintro rfl
          exact hb hs hv
        show Function.update (Function.update k.p_rlnk v _) t none u = _
        rw [Function.update_of_ne hu, Function.update_of_ne huv]
  · rw [hrlnk]
    cases hs : h.sem_mbx with
    | false =>
      have hrdy : h = .rdy := by
        by_contra hne
        rw [Head.sem_mbx_iff.mpr hne] at hs
        cases hs
      exact hk.front t (.inr (hrdy ▸ hplace)) (hk.wf.fresh t h hplace)
    | true => cases l.head? <;> exact Function.update_self ..

omit [Fintype T] in
/-- `rt_get_same_rdy_prio` takes the first ready task if it has the priority of the running one. -/
theorem get_same_rdy_prio_rep (hk : Rep k q) {u : T} (hq : q.queue .rdy = t :: l)
    (hrun : q.vars.run = some u) :
    ∃ k', rt_get_same_rdy_prio k =
        (.ok (if q.vars.prio t = q.vars.prio u then some t else none), k') ∧
      Rep k' (if q.vars.prio t = q.vars.prio u then q.take t else q) := by
  have hlinks := hk.links .rdy
  rw [hq] at hlinks
  have hq' : q.queue .rdy = [] ++ t :: l := hq
  have hplace := (hk.wf.split hq').1
  unfold rt_get_same_rdy_prio
  rw [run_bind_ok (run_read k), hlinks.1, hk.vars, hrun, run_bind_ok (deref_some t k),
    run_bind_ok (deref_some u k)]
  by_cases hp : q.vars.prio t = q.vars.prio u
  · refine ⟨{ k with p_lnk := Function.update k.p_lnk (.head .rdy) (k.p_lnk (.tcb t)) }, ?_, ?_⟩
    · rw [if_pos hp, if_pos hp]
      rfl
    · rw [if_pos hp]
      refine hk.take_clear hq' ⟨fun n _ => rfl, ?_, fun u _ _ => rfl, rfl, rfl, rfl, rfl⟩ ?_
      · intro hs
        cases hs
      · exact hk.front t (.inr hplace) (hk.wf.fresh t _ hplace)
  · refine ⟨k, ?_, ?_⟩
    · rw [if_neg hp, if_neg hp]
      rfl
    · rwa [if_neg hp]

/-! ## Removals -/

omit [DecidableEq M] [DecidableEq S] [DecidableEq T] [Fintype T] in
/-- A task need not be known to be fresh. -/
theorem Rep.stale (hk : Rep k q) {st : T → Bool} (hst : ∀ u, st u = false → q.stale u = false)
    (hwf : Wf { q with stale := st }) : Rep k { q with stale := st } :=
  ⟨hwf, hk.links, hk.backs, fun u hu hs => hk.front u hu (hst u hs), hk.dlinks, hk.dbacks, hk.undated,
    hk.diffs, hk.vars⟩

omit [Fintype T] in
/-- The search of `rt_rmv_list` for a task that is not there. -/
theorem rmv_list_search_none {n : Nat} {p : XCB M S T} (hl : Chain XCB.tcb k.p_lnk p l) (ht : t ∉ l)
    (hn : l.length < n) : rt_rmv_list.search t n p k = (.ok (), k) := by
  induction l generalizing p n with
  | nil =>
    cases n with
    | zero => cases hn
    | succ n =>
      have hp : k.p_lnk p = none := hl
      simp only [rt_rmv_list.search, run_bind_ok (run_read k), hp]
      rfl
  | cons u l ih =>
    cases n with
    | zero => cases hn
    | succ n =>
      obtain ⟨htu, htl⟩ := not_or.mp (fun h => ht (List.mem_cons.mpr h))
      simp only [rt_rmv_list.search, run_bind_ok (run_read k), hl.1]
      rw [if_neg (by simpa using Ne.symm htu)]
      exact ih hl.2 htl (by simpa using hn)

omit [Fintype T] in
/-- The search of `rt_rmv_list` links the task out. -/
theorem rmv_list_search_some {n : Nat} {p : XCB M S T} (hl : Chain XCB.tcb k.p_lnk p (l₁ ++ t :: l₂))
    (ht : t ∉ l₁) (hn : l₁.length < n) : rt_rmv_list.search t n p k =
      (.ok (), { k with p_lnk := Function.update k.p_lnk (lastCell .tcb p l₁) (k.p_lnk (.tcb t)) }) := by
  induction l₁ generalizing p n with
  | nil =>
    cases n with
    | zero => cases hn
    | succ n =>
      simp only [rt_rmv_list.search, run_bind_ok (run_read k), hl.1, if_true]
      rfl
  | cons u l ih =>
    cases n with
    | zero => cases hn
    | succ n =>
      obtain ⟨htu, htl⟩ := not_or.mp (fun h => ht (List.mem_cons.mpr h))
      simp only [rt_rmv_list.search, run_bind_ok (run_read k), hl.1]
      rw [if_neg (by simpa using Ne.symm htu)]
      exact ih hl.2 htl (by simpa using hn)

/-- `rt_rmv_list` takes a task out of whichever list it is in.  Its back link is left as it was. -/
theorem rmv_list_rep (hk : Rep k q) (hst : q.stale t = false) :
    ∃ k', rt_rmv_list t k = (.ok (), k') ∧
      Rep k' { q.take t with stale := Function.update q.stale t true } := by
  unfold rt_rmv_list
  rw [run_bind_ok (run_read k)]
  cases hplace : q.place t with
  | none =>
    rw [hk.front t (.inl hplace) hst, take_none hplace]
    refine ⟨k, rmv_list_search_none (hk.links .rdy) (hk.wf.out hplace .rdy)
      (listFuel_lt (hk.wf.nodup .rdy)), ?_⟩
    refine hk.stale (fun u hu => ?_) (hk.wf.stale hplace true)
    by_cases hut : u = t
    · subst hut
      exact hst
    · rwa [Function.update_of_ne hut] at hu
  | some h =>
    obtain ⟨l₁, l₂, hl⟩ := List.append_of_mem ((hk.wf.place h t).mpr hplace)
    have ht₁ := (hk.wf.split hl).2.1
    by_cases hs : h.sem_mbx = true
    · have hback := (hl ▸ hk.backs h hs).at
      have hnext : k.p_lnk (.tcb t) = l₂.head? := (hl ▸ hk.links h).behind
      rw [hback]
      cases hv : l₂.head? with
      | none =>
        rw [hv] at hnext
        rw [hnext]
        refine ⟨_, rfl, ?_⟩
        refine hk.take (b := true) hl ?_ nofun
        refine ⟨?_, ?_, fun u _ _ => rfl, rfl, rfl, rfl, rfl⟩
        · intro n _
          rw [hnext]
        · intro _ u hu
          rw [hv] at hu
          cases hu
      | some v =>
        rw [hv] at hnext
        rw [hnext]
        refine ⟨_, rfl, ?_⟩
        refine hk.take (b := true) hl ?_ nofun
        refine ⟨?_, ?_, ?_, rfl, rfl, rfl, rfl⟩
        · intro n _
          rw [hnext]
        · intro _ u hu
          rw [hv] at hu
          cases hu
          exact Function.update_self ..
        · intro u _ hb
          refine Function.update_of_ne ?_ ..
          rintro rfl
          exact hb hs hv
    · have hrdy : h = .rdy := by
        by_contra hne
        exact hs (Head.sem_mbx_iff.mpr hne)
      subst hrdy
      rw [hk.front t (.inr hplace) hst]
      have hlen : l₁.length < listFuel T := by
        have := listFuel_lt (hk.wf.nodup .rdy)
        rw [hl, List.length_append] at this
        omega
      refine ⟨_, rmv_list_search_some (hl ▸ hk.links .rdy) ht₁ hlen, ?_⟩
      refine hk.take (b := true) hl ?_ nofun
      refine ⟨fun n _ => rfl, ?_, fun u _ _ => rfl, rfl, rfl, rfl, rfl⟩
      intro h
      exact absurd h hs

omit [DecidableEq M] [DecidableEq S] [DecidableEq T] [Fintype T] in
/-- The loop of `rt_resort_prio` finds the header of the list. -/
theorem resort_header_run {n : Nat} (hb : Backs XCB.tcb k.p_rlnk (.head h) l) (hn : l.length < n) :
    rt_resort_prio.header n (lastCell .tcb (.head h) l) k = (.ok h, k) := by
  induction l using List.reverseRecOn generalizing n with
  | nil =>
    cases n with
    | zero => cases hn
    | succ n => rfl
  | append_singleton l u ih =>
    cases n with
    | zero => cases hn
    | succ n =>
      rw [lastCell_append]
      show rt_resort_prio.header (n + 1) (.tcb u) k = _
      rw [rt_resort_prio.header, run_bind_ok (run_read k), hb.at, run_bind_ok (deref_some _ k)]
      exact ih (backs_append.mp hb).1 (by simpa using hn)

omit [Fintype T] in
/-- What is taken out and put back is not stale. -/
theorem Queues.put_stale (b : Bool) :
    Queues.put { q.take t with stale := Function.update q.stale t b } h t = (q.take t).put h t := by
  simp [Queues.put, Queues.enlist]

/-- `rt_resort_prio` moves a task to its place after a change of its priority. -/
theorem resort_prio_rep (hk : Rep k q) (hplace : q.place t = some h)
    (hrdy : h = .rdy → q.vars.state t = .READY) :
    ∃ k', rt_resort_prio t k = (.ok (), k') ∧ Rep k' ((q.take t).put h t) := by
  obtain ⟨k₁, hrun₁, hk₁⟩ := rmv_list_rep (t := t) hk (hk.wf.fresh t h hplace)
  obtain ⟨k₂, hrun₂, hk₂, -, -⟩ := put_prio_rep (h := h) (t := t) hk₁ (take_place_self ..)
  rw [Queues.put_stale] at hk₂
  refine ⟨k₂, ?_, hk₂⟩
  unfold rt_resort_prio
  rw [run_bind_ok (run_read k)]
  by_cases hs : h.sem_mbx = true
  · obtain ⟨l₁, l₂, hl⟩ := List.append_of_mem ((hk.wf.place h t).mpr hplace)
    have hback := hl ▸ hk.backs h hs
    have hlen : l₁.length < listFuel T := by
      have := listFuel_lt (hk.wf.nodup h)
      rw [hl, List.length_append] at this
      omega
    rw [hback.at]
    show ((rt_resort_prio.header (listFuel T) _ : Rt M S T _) >>= _) k = _
    rw [run_bind_ok (resort_header_run (backs_append.mp hback).1 hlen), run_bind_ok hrun₁, hrun₂]
  · have hh : h = .rdy := by
      by_contra hne
      exact hs (Head.sem_mbx_iff.mpr hne)
    subst hh
    rw [hk.front t (.inr hplace) (hk.wf.fresh t _ hplace)]
    simp only [hk.vars, if_pos (hrdy rfl)]
    rw [run_bind_ok hrun₁, hrun₂]

end Expedition.Rtx
