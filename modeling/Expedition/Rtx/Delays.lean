import Mathlib.Data.List.TakeWhile
import Expedition.Rtx.Refine

/-!
# The delay list refines a list of dates

`os_dly` chains the delayed tasks by the time at which they are due, and keeps on each node only the
difference to the next one.  Here the differences are dates: `rt_put_dly` puts a date in, `rt_rmv_dly`
takes one out, and `rt_dec_dly` counts the tick and makes ready exactly the tasks whose date it is.

Principal result: `Op.sim`, the refinement for all functions of `rt_List.c`.
-/

namespace Expedition.Rtx

open Exec Linked Queues

variable {M S T : Type} [DecidableEq M] [DecidableEq S] [DecidableEq T] [Fintype T]

variable {k k' : Kernel M S T} {q : Queues M S T} {h : Head M S} {t : T} {m m₁ m₂ : List (T × Nat)}

omit [DecidableEq M] [DecidableEq S] [DecidableEq T] [Fintype T] in
/-- Only the delay list has changed. -/
theorem Rep.redate (hk : Rep k q) (hl : k'.p_lnk = k.p_lnk) (hr : k'.p_rlnk = k.p_rlnk)
    (hv : k'.vars = k.vars) (hm : (m.map Prod.fst).Nodup) (hs : ∀ p ∈ m, p.2 ≤ q.now + 65534)
    (hlinks : Chain DCB.tcb k'.p_dlnk .os_dly (m.map Prod.fst))
    (hbacks : Backs DCB.tcb k'.p_blnk .os_dly (m.map Prod.fst))
    (hun : ∀ u, u ∉ m.map Prod.fst → k'.p_blnk u = none)
    (hd : Diffs DCB.tcb k'.delta_time q.now .os_dly m) : Rep k' { q with delay := m } := by
  refine ⟨⟨hk.wf.nodup, hk.wf.place, hm, hs, hk.wf.fresh⟩, ?_, ?_, ?_, hlinks, hbacks, hun, hd, ?_⟩
  · rw [hl]; exact hk.links
  · rw [hr]; exact hk.backs
  · rw [hr]; exact hk.front
  · rw [hv]; exact hk.vars

/-! ## Putting in -/

omit [DecidableEq M] [DecidableEq S] [DecidableEq T] [Fintype T] in
/-- A difference is not more than what is left up to the last date. -/
theorem diffs_bound {a b : Nat} {n : DCB T} (hd : Diffs DCB.tcb k.delta_time a n m) (ha : a ≤ b)
    (hm : ∀ p ∈ m, p.2 ≤ b) : a + k.delta_time n ≤ b := by
  cases m with
  | nil => rw [show k.delta_time n = 0 from hd]; exact ha
  | cons p m =>
    rw [hd.1]
    exact hm p List.mem_cons_self

omit [DecidableEq M] [DecidableEq S] [DecidableEq T] [Fintype T] in
/-- The search of `rt_put_dly` passes the dates before `q.now + idelay`. -/
theorem put_dly_search_run {now idelay a n delta : Nat} {p : DCB T}
    (hl : Chain DCB.tcb k.p_dlnk p (m.map Prod.fst)) (hd : Diffs DCB.tcb k.delta_time a p m)
    (hdelta : now + delta = a + k.delta_time p) (ha : now ≤ a ∧ a < now + idelay)
    (hm : ∀ p ∈ m, p.2 ≤ now + 65534) (hn : m.length < n) :
    rt_put_dly.search idelay n p delta k =
      (.ok (lastNode .tcb p (m.takeWhile fun p => p.2 < now + idelay),
        lastDate a (m.takeWhile fun p => p.2 < now + idelay) +
          k.delta_time (lastNode .tcb p (m.takeWhile fun p => p.2 < now + idelay)) - now,
        (m.dropWhile fun p => p.2 < now + idelay).isEmpty), k) := by
  induction m generalizing a p n delta with
  | nil =>
    cases n with
    | zero => cases hn
    | succ n =>
      have hp : k.p_dlnk p = none := hl
      have hz : k.delta_time p = 0 := hd
      simp only [rt_put_dly.search, run_bind_ok (run_read k), hp]
      rw [if_pos (by omega)]
      simp [lastNode, lastCell, lastDate]
      omega
  | cons c m ih =>
    obtain ⟨u, e⟩ := c
    cases n with
    | zero => cases hn
    | succ n =>
      have hae : a + k.delta_time p = e := hd.1
      have he : e ≤ now + 65534 := hm (u, e) List.mem_cons_self
      have hbound := diffs_bound hd.2 he fun c hc => hm c (List.mem_cons_of_mem _ hc)
      simp only [rt_put_dly.search, run_bind_ok (run_read k), hl.1, List.takeWhile_cons,
        List.dropWhile_cons]
      by_cases hlt : e < now + idelay
      · rw [if_pos (by omega)]
        simp only [hlt, decide_true, if_true]
        have hu : u32 (delta + k.delta_time (.tcb u)) = delta + k.delta_time (.tcb u) := by
          unfold u32
          omega
        rw [hu]
        exact ih hl.2 hd.2 (by omega) ⟨by omega, hlt⟩ (fun c hc => hm c (List.mem_cons_of_mem _ hc))
          (by simpa using hn)
      · rw [if_neg (by omega)]
        simp only [hlt, decide_false]
        simp [lastNode, lastCell, lastDate]
        omega

/-- What putting `t` in behind `m₁` with the date `d` writes. -/
structure Dates (k k' : Kernel M S T) (now : Nat) (t : T) (d : Nat) (m₁ m₂ : List (T × Nat)) : Prop where
  p_dlnk : k'.p_dlnk = Function.update
    (Function.update k.p_dlnk (.tcb t) (k.p_dlnk (lastNode .tcb .os_dly m₁)))
    (lastNode .tcb .os_dly m₁) (some t)
  self : k'.p_blnk t = some (lastNode .tcb .os_dly m₁)
  behind : ∀ u ∈ (m₂.map Prod.fst).head?, k'.p_blnk u = some (.tcb t)
  other : ∀ u, u ≠ t → u ∉ (m₂.map Prod.fst).head? → k'.p_blnk u = k.p_blnk u
  before : lastDate now m₁ + k'.delta_time (lastNode .tcb .os_dly m₁) = d
  last : m₂ = [] → k'.delta_time (.tcb t) = 0
  middle : ∀ c ∈ m₂.head?, d + k'.delta_time (.tcb t) = c.2
  delta : ∀ n, n ≠ lastNode .tcb .os_dly m₁ → n ≠ .tcb t → k'.delta_time n = k.delta_time n
  rest : k'.p_lnk = k.p_lnk ∧ k'.p_rlnk = k.p_rlnk ∧ k'.vars = k.vars

omit [DecidableEq M] [DecidableEq S] [DecidableEq T] [Fintype T] in
/-- The pieces of the delay list around a date. -/
theorem Rep.dates_split (hk : Rep k q) (hq : q.delay = m₁ ++ m₂) :
    (DCB.os_dly :: ((m₁ ++ m₂).map Prod.fst).map DCB.tcb).Nodup ∧
      lastDate q.now m₁ + k.delta_time (lastNode .tcb .os_dly m₁) ≤ q.now + 65534 ∧
      q.now ≤ lastDate q.now m₁ ∧
      k.p_dlnk (lastNode .tcb .os_dly m₁) = (m₂.map Prod.fst).head? := by
  have hnd := hk.wf.dlyNodes_nodup
  rw [Queues.dlyNodes, Queues.delayed, hq] at hnd
  have hl := hk.dlinks
  rw [Queues.delayed, hq, List.map_append] at hl
  obtain ⟨hp, hd⟩ := diffs_append.mp (hq ▸ hk.diffs)
  have hlast : q.now ≤ lastDate q.now m₁ ∧ lastDate q.now m₁ ≤ q.now + 65534 := by
    rcases lastDate_mem q.now m₁ with he | ⟨p, hp, he⟩
    · omega
    · have hmem : p ∈ q.delay := hq ▸ List.mem_append_left _ hp
      have hle := hk.diffs.le p hmem
      have hsoon := hk.wf.soon p hmem
      omega
  refine ⟨hnd, diffs_bound hd hlast.2 fun p hp => ?_, hlast.1, hl.at⟩
  exact hk.wf.soon p (hq ▸ List.mem_append_right _ hp)

omit [DecidableEq M] [DecidableEq S] [Fintype T] in
/-- **The heap with the date put in represents the delay list with the date put in.** -/
theorem Rep.date_in (hk : Rep k q) {d : Nat} (ht : t ∉ q.delayed) (hq : q.delay = m₁ ++ m₂)
    (hd : ∀ c ∈ m₂.head?, d ≤ c.2) (hsoon : d ≤ q.now + 65534) (he : Dates k k' q.now t d m₁ m₂) :
    Rep k' { q with delay := m₁ ++ (t, d) :: m₂ } := by
  obtain ⟨hnodes, -, -, -⟩ := hk.dates_split hq
  have hdel : q.delayed = m₁.map Prod.fst ++ m₂.map Prod.fst := by
    rw [Queues.delayed, hq, List.map_append]
  have hnd : (m₁.map Prod.fst ++ m₂.map Prod.fst).Nodup := hdel ▸ hk.wf.delayed
  have hout : DCB.tcb t ∉ DCB.os_dly :: ((m₁ ++ m₂).map Prod.fst).map DCB.tcb := by
    intro hm
    rcases List.mem_cons.mp hm with he | hm
    · cases he
    · obtain ⟨u, hu, he⟩ := List.mem_map.mp hm
      cases he
      exact ht (by rw [Queues.delayed, hq]; exact hu)
  rw [List.map_append] at hnodes hout
  refine hk.redate he.rest.1 he.rest.2.1 he.rest.2.2 ?_ ?_ ?_ ?_ ?_ ?_
  · rw [List.map_append, List.map_cons, List.nodup_middle, List.nodup_cons, ← hdel]
    exact ⟨ht, hk.wf.delayed⟩
  · intro c hc
    rcases List.mem_append.mp hc with hc | hc
    · exact hk.wf.soon c (hq ▸ List.mem_append_left _ hc)
    · rcases List.mem_cons.mp hc with rfl | hc
      · exact hsoon
      · exact hk.wf.soon c (hq ▸ List.mem_append_right _ hc)
  · rw [List.map_append, List.map_cons, he.p_dlnk]
    exact (hdel ▸ hk.dlinks).insert hnodes hout
  · rw [List.map_append, List.map_cons]
    have hne : ∀ u ∈ q.delayed, u ≠ t := fun u hu e => ht (e ▸ hu)
    refine (hdel ▸ hk.dbacks).insert he.self (fun u hu => ?_) he.behind fun u hu => ?_
    · refine he.other u (hne u (hdel ▸ List.mem_append_left _ hu)) fun hu' => ?_
      exact (List.nodup_append.mp hnd).2.2 u hu u (List.mem_of_mem_head? hu') rfl
    · cases m₂ with
      | nil => cases hu
      | cons c m₂ =>
        refine he.other u (hne u (hdel ▸ List.mem_append_right _ (List.mem_cons_of_mem _ hu))) ?_
        intro hu'
        obtain rfl := Option.some.inj hu'
        exact (List.nodup_cons.mp (List.nodup_append.mp hnd).2.1).1 hu
  · intro u hu
    rw [List.map_append, List.map_cons, List.mem_append, List.mem_cons, not_or, not_or] at hu
    rw [he.other u hu.2.1 fun hu' => hu.2.2 (List.mem_of_mem_head? hu')]
    refine hk.undated u ?_
    rw [hdel, List.mem_append]
    exact not_or.mpr ⟨hu.1, hu.2.2⟩
  · rw [← List.map_append] at hnodes hout
    exact (hq ▸ hk.diffs).insert hnodes hout he.before he.last he.middle he.delta

omit [DecidableEq M] [DecidableEq S] [DecidableEq T] in
/-- Where `rt_put_dly` goes in, and the time up to there. -/
theorem put_dly_place_run (hk : Rep k q) {d : Nat} (hd : 0 < d)
    (hm₁ : q.delay.takeWhile (fun p => p.2 < q.now + d) = m₁)
    (hm₂ : q.delay.dropWhile (fun p => p.2 < q.now + d) = m₂) :
    rt_put_dly.place d k = (.ok (lastNode .tcb .os_dly m₁,
      lastDate q.now m₁ + k.delta_time (lastNode .tcb .os_dly m₁) - q.now, m₂.isEmpty), k) := by
  unfold rt_put_dly.place
  rw [run_bind_ok (run_read k)]
  cases hm : q.delay with
  | nil =>
    have hnone : k.p_dlnk .os_dly = none := by rw [hk.dlinks.head?, Queues.delayed, hm]; rfl
    have hzero : k.delta_time .os_dly = 0 := by
      have := hk.diffs
      rwa [hm] at this
    rw [hm] at hm₁ hm₂
    subst hm₁ hm₂
    rw [if_pos hnone]
    simp [lastNode, lastCell, lastDate, hzero]
  | cons c m =>
    have hsome : k.p_dlnk .os_dly ≠ none := by
      rw [hk.dlinks.head?, Queues.delayed, hm]
      simp
    have hlen : q.delay.length < listFuel T := by
      have := listFuel_lt hk.wf.delayed
      rwa [List.length_map] at this
    have hfuture : q.now ≤ q.now ∧ q.now < q.now + d := ⟨Nat.le_refl _, by omega⟩
    have hrun := put_dly_search_run hk.dlinks hk.diffs rfl hfuture hk.wf.soon hlen
    rw [hm₁, hm₂] at hrun
    rw [if_neg hsome]
    exact hrun

omit [DecidableEq M] [DecidableEq S] in
/-- `rt_put_dly` puts the task in with the date that is `d` ticks ahead. -/
theorem put_dly_rep (hk : Rep k q) {d : Nat} (ht : t ∉ q.delayed) (hd : 0 < d ∧ d < 65535) :
    ∃ k', rt_put_dly t d k = (.ok (), k') ∧
      Rep k' { q with delay := putDate t (q.now + d) q.delay } := by
  have hsplit := List.takeWhile_append_dropWhile (p := fun p : T × Nat => p.2 < q.now + d) (l := q.delay)
  have hhead : ∀ c ∈ (q.delay.dropWhile fun p => p.2 < q.now + d).head?, q.now + d ≤ c.2 := by
    intro c hc
    have := List.head?_dropWhile_not (fun p : T × Nat => decide (p.2 < q.now + d)) q.delay
    rw [Option.mem_def.mp hc] at this
    simpa using this
  have hbefore : ∀ c ∈ q.delay.takeWhile fun p => p.2 < q.now + d, c.2 < q.now + d :=
    fun c hc => by simpa using List.mem_takeWhile_imp hc
  generalize hm₁ : q.delay.takeWhile (fun p => p.2 < q.now + d) = m₁ at *
  generalize hm₂ : q.delay.dropWhile (fun p => p.2 < q.now + d) = m₂ at *
  have hplace := put_dly_place_run hk hd.1 hm₁ hm₂
  obtain ⟨hnodes, hbound, hnow, hnext⟩ := hk.dates_split hsplit.symm
  have hput : putDate t (q.now + d) q.delay = m₁ ++ (t, q.now + d) :: m₂ := by
    rw [putDate, hm₁, hm₂]
  have hlast : lastDate q.now m₁ < q.now + d := by
    rcases lastDate_mem q.now m₁ with he | ⟨p, hp, he⟩
    · omega
    · have := hbefore p hp
      omega
  have hrep : ∀ k', _ → Rep k' _ := fun k' hk' => hk.date_in ht hsplit.symm hhead (by omega) hk'
  unfold rt_put_dly
  rw [run_bind_ok (run_read k), run_bind_ok hplace, hput]
  have hdiffs := (diffs_append.mp (hsplit ▸ hk.diffs)).2
  have hne : DCB.tcb t ≠ lastNode .tcb .os_dly m₁ := by
    intro he
    have hmem := lastNode_mem DCB.tcb .os_dly m₁
    rw [← he] at hmem
    rcases List.mem_cons.mp hmem with he | hm
    · cases he
    · obtain ⟨u, hu, he⟩ := List.mem_map.mp hm
      cases he
      exact ht (by rw [Queues.delayed, ← hsplit, List.map_append]; exact List.mem_append_left _ hu)
  cases m₂ with
  | nil =>
    have hzero : k.delta_time (lastNode .tcb .os_dly m₁) = 0 := hdiffs
    have hrun : u16 (d - (lastDate q.now m₁ + k.delta_time (lastNode .tcb .os_dly m₁) - q.now)) =
        q.now + d - lastDate q.now m₁ := by
      unfold u16
      omega
    simp only [hrun, List.isEmpty_nil, if_true]
    refine ⟨_, rfl, hrep _ ?_⟩
    refine ⟨?_, Function.update_self .., ?_, ?_, ?_, fun _ => Function.update_self .., ?_, ?_,
      rfl, rfl, rfl⟩
    · rw [hnext]
      rfl
    · intro u hu
      cases hu
    · intro u hu _
      exact Function.update_of_ne hu ..
    · show lastDate q.now m₁ + Function.update (Function.update k.delta_time _ _) (.tcb t) 0 _ = _
      rw [Function.update_of_ne hne.symm, Function.update_self]
      show lastDate q.now m₁ + (q.now + d - lastDate q.now m₁) = q.now + d
      omega
    · intro c hc
      cases hc
    · intro n hn hn'
      show Function.update (Function.update k.delta_time _ _) (.tcb t) 0 n = _
      rw [Function.update_of_ne hn', Function.update_of_ne hn]
  | cons c m₂ =>
    obtain ⟨u, e⟩ := c
    have hue : lastDate q.now m₁ + k.delta_time (lastNode .tcb .os_dly m₁) = e := hdiffs.1
    have hde : q.now + d ≤ e := hhead (u, e) rfl
    have hut : u ≠ t := by
      rintro rfl
      refine ht ?_
      rw [Queues.delayed, ← hsplit, List.map_append]
      exact List.mem_append_right _ List.mem_cons_self
    have hnext' : k.p_dlnk (lastNode .tcb .os_dly m₁) = some u := hnext
    have hrun : u16 (lastDate q.now m₁ + k.delta_time (lastNode .tcb .os_dly m₁) - q.now - d) =
        e - (q.now + d) := by
      unfold u16
      omega
    simp only [hnext', hrun, List.isEmpty_cons, Bool.false_eq_true, if_false]
    refine ⟨_, rfl, hrep _ ?_⟩
    refine ⟨?_, ?_, ?_, ?_, ?_, ?_, ?_, ?_, rfl, rfl, rfl⟩
    · rw [hnext']
    · exact (Function.update_of_ne hut.symm ..).trans (Function.update_self ..)
    · intro v hv
      cases hv
      exact Function.update_self ..
    · intro v hv hv'
      have hvu : v ≠ u := by
        rintro rfl
        exact hv' rfl
      exact (Function.update_of_ne hvu ..).trans (Function.update_of_ne hv ..)
    · show lastDate q.now m₁ + Function.update (Function.update k.delta_time _ _) _ _ _ = _
      rw [Function.update_self]
      unfold u16
      omega
    · intro hm
      cases hm
    · intro c hc
      cases hc
      show q.now + d + Function.update (Function.update k.delta_time _ _) _ _ _ = _
      rw [Function.update_of_ne hne, Function.update_self]
      omega
    · intro n hn hn'
      show Function.update (Function.update k.delta_time _ _) _ _ n = _
      rw [Function.update_of_ne hn, Function.update_of_ne hn']

/-! ## Taking out -/

/-- What taking `t` out from behind `m₁` writes. -/
structure Undates (k k' : Kernel M S T) (t : T) (m₁ m₂ : List (T × Nat)) : Prop where
  p_dlnk : ∀ n, n ≠ .tcb t → k'.p_dlnk n =
    Function.update k.p_dlnk (lastNode .tcb .os_dly m₁) (k.p_dlnk (.tcb t)) n
  self : k'.p_blnk t = none
  behind : ∀ u ∈ (m₂.map Prod.fst).head?, k'.p_blnk u = some (lastNode .tcb .os_dly m₁)
  other : ∀ u, u ≠ t → u ∉ (m₂.map Prod.fst).head? → k'.p_blnk u = k.p_blnk u
  last : m₂ = [] → k'.delta_time (lastNode .tcb .os_dly m₁) = 0
  middle : m₂ ≠ [] → k'.delta_time (lastNode .tcb .os_dly m₁) =
    k.delta_time (lastNode .tcb .os_dly m₁) + k.delta_time (.tcb t)
  delta : ∀ n, n ≠ lastNode .tcb .os_dly m₁ → n ≠ .tcb t → k'.delta_time n = k.delta_time n
  rest : k'.p_lnk = k.p_lnk ∧ k'.p_rlnk = k.p_rlnk ∧ k'.vars = k.vars

omit [DecidableEq M] [DecidableEq S] [Fintype T] in
/-- **The heap with the date taken out represents the delay list without it.** -/
theorem Rep.date_out (hk : Rep k q) {d : Nat} (hq : q.delay = m₁ ++ (t, d) :: m₂)
    (he : Undates k k' t m₁ m₂) : Rep k' { q with delay := m₁ ++ m₂ } := by
  obtain ⟨hnodes, -, -, -⟩ := hk.dates_split hq
  have hdel : q.delayed = m₁.map Prod.fst ++ t :: m₂.map Prod.fst := by
    rw [Queues.delayed, hq, List.map_append, List.map_cons]
  have hnd : (m₁.map Prod.fst ++ t :: m₂.map Prod.fst).Nodup := hdel ▸ hk.wf.delayed
  have hout := List.nodup_middle.mp hnd
  rw [List.nodup_cons, List.mem_append, not_or] at hout
  obtain ⟨⟨ht₁, ht₂⟩, hnd'⟩ := hout
  have hapart := (List.nodup_append.mp hnd').2.2
  refine hk.redate he.rest.1 he.rest.2.1 he.rest.2.2 ?_ ?_ ?_ ?_ ?_ ?_
  · rw [List.map_append]
    exact hnd'
  · intro c hc
    refine hk.wf.soon c ?_
    rw [hq]
    rcases List.mem_append.mp hc with hc | hc
    · exact List.mem_append_left _ hc
    · exact List.mem_append_right _ (List.mem_cons_of_mem _ hc)
  · rw [List.map_append, List.map_cons] at hnodes
    rw [List.map_append]
    refine ((hdel ▸ hk.dlinks).remove hnodes).congr fun n hn => he.p_dlnk n ?_
    rintro rfl
    rcases List.mem_cons.mp hn with hn | hn
    · cases hn
    · obtain ⟨u, hu, hut⟩ := List.mem_map.mp hn
      cases hut
      exact (List.mem_append.mp hu).elim ht₁ ht₂
  · rw [List.map_append]
    refine (hdel ▸ hk.dbacks).remove (fun u hu => ?_) he.behind fun u hu => ?_
    · exact he.other u (fun e => ht₁ (e ▸ hu)) fun hu' =>
        hapart u hu u (List.mem_of_mem_head? hu') rfl
    · cases m₂ with
      | nil => cases hu
      | cons c m₂ =>
        refine he.other u (fun e => ht₂ (e ▸ List.mem_cons_of_mem _ hu)) fun hu' => ?_
        obtain rfl := Option.some.inj hu'
        exact (List.nodup_cons.mp (List.nodup_append.mp hnd').2.1).1 hu
  · intro u hu
    rw [List.map_append, List.mem_append, not_or] at hu
    by_cases hut : u = t
    · subst hut
      exact he.self
    · rw [he.other u hut fun hu' => hu.2 (List.mem_of_mem_head? hu')]
      refine hk.undated u ?_
      rw [hdel, List.mem_append, List.mem_cons]
      exact not_or.mpr ⟨hu.1, not_or.mpr ⟨hut, hu.2⟩⟩
  · exact (hq ▸ hk.diffs).remove hnodes he.last he.middle he.delta

omit [DecidableEq M] [DecidableEq S] [Fintype T] in
/-- `rt_rmv_dly` takes the task out of the delay list, if it is in it. -/
theorem rmv_dly_rep (hk : Rep k q) :
    ∃ k', rt_rmv_dly t k = (.ok (), k') ∧ Rep k' { q with delay := q.delay.filter fun p => p.1 ≠ t } := by
  unfold rt_rmv_dly
  rw [run_bind_ok (run_read k)]
  by_cases ht : t ∈ q.delayed
  · obtain ⟨⟨u, d⟩, hmem, rfl⟩ := List.mem_map.mp ht
    obtain ⟨m₁, m₂, hq⟩ := List.append_of_mem hmem
    have hdel : q.delayed = m₁.map Prod.fst ++ u :: m₂.map Prod.fst := by
      rw [Queues.delayed, hq, List.map_append, List.map_cons]
    have hnd : (m₁.map Prod.fst ++ u :: m₂.map Prod.fst).Nodup := hdel ▸ hk.wf.delayed
    have hout := List.nodup_middle.mp hnd
    rw [List.nodup_cons, List.mem_append, not_or] at hout
    have hfilter : q.delay.filter (fun p => p.1 ≠ u) = m₁ ++ m₂ := by
      have hkeep : ∀ m : List (T × Nat), u ∉ m.map Prod.fst → m.filter (fun p => p.1 ≠ u) = m := by
        intro m hm
        refine List.filter_eq_self.mpr fun c hc => ?_
        simp only [ne_eq, decide_not, Bool.not_eq_true', decide_eq_false_iff_not]
        rintro rfl
        exact hm (List.mem_map_of_mem hc)
      rw [hq, List.filter_append, List.filter_cons, hkeep m₁ hout.1.1, hkeep m₂ hout.1.2]
      simp
    rw [hfilter]
    have hback := (hdel ▸ hk.dbacks).at
    have hnext : k.p_dlnk (.tcb u) = (m₂.map Prod.fst).head? := (hdel ▸ hk.dlinks).behind
    simp only [hback]
    have hrep : ∀ k', _ → Rep k' _ := fun k' hk' => hk.date_out hq hk'
    cases m₂ with
    | nil =>
      simp only [hnext]
      refine ⟨_, rfl, hrep _ ?_⟩
      refine ⟨?_, Function.update_self .., nofun, ?_, fun _ => Function.update_self .., nofun, ?_,
        rfl, rfl, rfl⟩
      · intro n _
        rw [hnext]
      · intro v hv _
        exact Function.update_of_ne hv ..
      · intro n hn _
        exact Function.update_of_ne hn ..
    | cons c m₂ =>
      obtain ⟨v, e⟩ := c
      have hnext' : k.p_dlnk (.tcb u) = some v := hnext
      have hvu : v ≠ u := fun h => hout.1.2 (h ▸ List.mem_cons_self)
      have hsum : u16 (k.delta_time (lastNode .tcb .os_dly m₁) + k.delta_time (.tcb u)) =
          k.delta_time (lastNode .tcb .os_dly m₁) + k.delta_time (.tcb u) := by
        obtain ⟨-, hbound, hnow, -⟩ := hk.dates_split hq
        obtain ⟨-, hd, he, -⟩ := diffs_append.mp (hq ▸ hk.diffs)
        have hsoon := hk.wf.soon (v, e) (by rw [hq]; simp)
        simp only at hsoon
        unfold u16
        omega
      simp only [hnext', hsum]
      refine ⟨_, rfl, hrep _ ?_⟩
      refine ⟨?_, Function.update_self .., ?_, ?_, nofun, fun _ => Function.update_self .., ?_,
        rfl, rfl, rfl⟩
      · intro n hn
        rw [hnext']
        exact Function.update_of_ne hn ..
      · intro w hw
        cases hw
        exact (Function.update_of_ne hvu ..).trans (Function.update_self ..)
      · intro w hw hw'
        have hwv : w ≠ v := by
          rintro rfl
          exact hw' rfl
        exact (Function.update_of_ne hw ..).trans (Function.update_of_ne hwv ..)
      · intro n hn _
        exact Function.update_of_ne hn ..
  · have hfilter : q.delay.filter (fun p => p.1 ≠ t) = q.delay := by
      refine List.filter_eq_self.mpr fun c hc => ?_
      simp only [ne_eq, decide_not, Bool.not_eq_true', decide_eq_false_iff_not]
      rintro rfl
      exact ht (List.mem_map_of_mem hc)
    rw [hfilter, hk.undated t ht]
    exact ⟨k, rfl, hk⟩

/-! ## The tick -/

omit [DecidableEq M] [DecidableEq S] [DecidableEq T] [Fintype T] in
/-- The variables that are no links may change on both sides. -/
theorem Rep.modify (hk : Rep k q) (f : Vars M S T → Vars M S T) :
    Rep { k with vars := f k.vars } { q with vars := f q.vars } :=
  ⟨⟨hk.wf.nodup, hk.wf.place, hk.wf.delayed, hk.wf.soon, hk.wf.fresh⟩, hk.links, hk.backs, hk.front,
    hk.dlinks, hk.dbacks, hk.undated, hk.diffs, by rw [hk.vars]⟩

omit [Fintype T] in
/-- The heap the end of a wait leaves. -/
theorem unwait_run {p : XCB M S T} (hp : k.p_rlnk t = some p) :
    ∃ k', rt_dec_dly.unwait t k = (.ok (), k') ∧
      (∀ n, n ≠ .tcb t → k'.p_lnk n = Function.update k.p_lnk p (k.p_lnk (.tcb t)) n) ∧
      k'.p_rlnk = Function.update (match k.p_lnk (.tcb t) with
        | some u => Function.update k.p_rlnk u (some p)
        | none => k.p_rlnk) t none ∧
      k'.p_dlnk = k.p_dlnk ∧ k'.p_blnk = k.p_blnk ∧ k'.delta_time = k.delta_time ∧ k'.vars = k.vars := by
  unfold rt_dec_dly.unwait
  rw [run_bind_ok (run_read k), hp]
  have hother : ∀ n, n ≠ XCB.tcb t →
      Function.update (Function.update k.p_lnk p (k.p_lnk (.tcb t))) (.tcb t) none n =
        Function.update k.p_lnk p (k.p_lnk (.tcb t)) n :=
    fun n hn => Function.update_of_ne hn ..
  cases hnext : k.p_lnk (.tcb t) with
  | none =>
    exact ⟨_, rfl, fun n _ => rfl, rfl, rfl, rfl, rfl, rfl⟩
  | some u =>
    simp only [hnext] at hother ⊢
    exact ⟨_, rfl, hother, rfl, rfl, rfl, rfl, rfl⟩

omit [Fintype T] in
/-- A task whose time has come leaves the waiting list it is in, if any. -/
theorem unwait_rep (hk : Rep k q) (hst : q.stale t = false) (hrdy : q.place t ≠ some .rdy) :
    ∃ k', rt_dec_dly.unwait t k = (.ok (), k') ∧ Rep k' (q.take t) ∧
      k'.p_dlnk = k.p_dlnk ∧ k'.delta_time = k.delta_time := by
  cases hplace : q.place t with
  | none =>
    refine ⟨k, ?_, by rwa [take_none hplace], rfl, rfl⟩
    unfold rt_dec_dly.unwait
    rw [run_bind_ok (run_read k), hk.front t (.inl hplace) hst]
    rfl
  | some h =>
    have hs : h.sem_mbx = true := Head.sem_mbx_iff.mpr fun he => hrdy (he ▸ hplace)
    obtain ⟨l₁, l₂, hl⟩ := List.append_of_mem ((hk.wf.place h t).mpr hplace)
    have ht₂ := (hk.wf.split hl).2.2.1
    obtain ⟨k', hrun, hlnk, hrlnk, hrest⟩ := unwait_run (hl ▸ hk.backs h hs).at
    have hnext : k.p_lnk (.tcb t) = l₂.head? := (hl ▸ hk.links h).behind
    rw [hnext] at hrlnk
    refine ⟨k', hrun, hk.take_clear hl ⟨hlnk, fun _ u hu => ?_, fun u hu hb => ?_, hrest⟩ ?_, hrest.1,
      hrest.2.2.1⟩
    · have hut : u ≠ t := fun e => ht₂ (e ▸ List.mem_of_mem_head? hu)
      rw [hrlnk, Function.update_of_ne hut, Option.mem_def.mp hu]
      exact Function.update_self ..
    · rw [hrlnk, Function.update_of_ne hu]
      cases hv : l₂.head? with
      | none => rfl
      | some v =>
        refine Function.update_of_ne ?_ ..
        rintro rfl
        exact hb hs hv
    · rw [hrlnk]
      exact Function.update_self ..

/-- One round of the loop of `rt_dec_dly`. -/
theorem release_run {n : Nat} {k₁ k₂ : Kernel M S T} (hd : k.p_dlnk .os_dly = some t)
    (hz : k.delta_time .os_dly = 0) (h₁ : rt_dec_dly.unwait t k = (.ok (), k₁))
    (h₂ : rt_put_prio .rdy t k₁ = (.ok (), k₂)) :
    ∃ k', rt_dec_dly.release (n + 1) k = rt_dec_dly.release n k' ∧
      (∀ x, x ≠ .tcb t → k'.p_dlnk x = Function.update k₂.p_dlnk .os_dly (k.p_dlnk (.tcb t)) x) ∧
      k'.p_blnk = Function.update (match k.p_dlnk (.tcb t) with
        | some u => Function.update k₂.p_blnk u (some .os_dly)
        | none => k₂.p_blnk) t none ∧
      (∀ x, x ≠ .tcb t →
        k'.delta_time x = Function.update k₂.delta_time .os_dly (k.delta_time (.tcb t)) x) ∧
      k'.p_lnk = k₂.p_lnk ∧ k'.p_rlnk = k₂.p_rlnk ∧
      k'.vars = k₂.vars.setState t .READY := by
  have hdl : ∀ x, x ≠ DCB.tcb t →
      Function.update (Function.update k₂.p_dlnk .os_dly (k.p_dlnk (.tcb t))) (.tcb t) none x =
        Function.update k₂.p_dlnk .os_dly (k.p_dlnk (.tcb t)) x :=
    fun x hx => Function.update_of_ne hx ..
  have hde : ∀ v, ∀ x, x ≠ DCB.tcb t →
      Function.update (Function.update k₂.delta_time .os_dly (k.delta_time (.tcb t))) (.tcb t) v x =
        Function.update k₂.delta_time .os_dly (k.delta_time (.tcb t)) x :=
    fun v x hx => Function.update_of_ne hx ..
  simp only [rt_dec_dly.release, run_bind_ok (run_read k), hd, hz, if_true]
  rw [run_bind_ok h₁, run_bind_ok h₂]
  by_cases hitv : k.vars.state t = .WAIT_ITV
  · simp only [hitv, if_true]
    cases hnext : k.p_dlnk (.tcb t) with
    | none =>
      refine ⟨_, rfl, ?_, rfl, hde _, rfl, rfl, rfl⟩
      intro x _
      rfl
    | some u =>
      rw [hnext] at hdl
      exact ⟨_, rfl, hdl, rfl, hde _, rfl, rfl, rfl⟩
  · simp only [hitv, if_false]
    cases hnext : k.p_dlnk (.tcb t) with
    | none =>
      refine ⟨_, rfl, ?_, rfl, ?_, rfl, rfl, rfl⟩
      · intro x _
        rfl
      · intro x _
        rfl
    | some u =>
      rw [hnext] at hdl
      refine ⟨_, rfl, hdl, rfl, ?_, rfl, rfl, rfl⟩
      intro x _
      rfl

/-- **One round of the loop makes the first task ready.** -/
theorem release_rep (hk : Rep k q) {n d : Nat} (hq : q.delay = (t, d) :: m) (hd : d ≤ q.now)
    (hst : q.stale t = false) (hrdy : q.place t ≠ some .rdy) :
    ∃ k', rt_dec_dly.release (n + 1) k = rt_dec_dly.release n k' ∧
      Rep k' { q.release t with delay := m } := by
  have hhead : k.p_dlnk .os_dly = some t := by rw [hk.dlinks.head?, Queues.delayed, hq]; rfl
  have hdiffs : Diffs DCB.tcb k.delta_time q.now .os_dly ((t, d) :: m) := hq ▸ hk.diffs
  have hz : k.delta_time .os_dly = 0 := by
    have := hdiffs.1
    omega
  obtain ⟨k₁, h₁, hk₁, hdl₁, hde₁⟩ := unwait_rep hk hst hrdy
  obtain ⟨k₂, h₂, hk₂, hdl₂, hde₂⟩ := put_prio_rep (h := .rdy) hk₁ take_place_self
  obtain ⟨k', hrun, hdl, hbl, hde, hl, hr, hv⟩ := release_run (n := n) hhead hz h₁ h₂
  refine ⟨k', hrun, ?_⟩
  have hk₃ := hk₂.modify fun v => v.setState t .READY
  have hdelay : ((q.take t).put .rdy t).delay = [] ++ (t, d) :: m := by
    show (q.take t).delay = _
    rw [take_delay, hq]
    rfl
  have hnext : k.p_dlnk (.tcb t) = (m.map Prod.fst).head? := by
    have := hk.dlinks
    rw [Queues.delayed, hq] at this
    exact this.2.head?
  have hout : t ∉ m.map Prod.fst := by
    have := hk.wf.delayed
    rw [Queues.delayed, hq] at this
    exact (List.nodup_cons.mp this).1
  have hself : k'.delta_time .os_dly = k.delta_time (.tcb t) := by
    rw [hde .os_dly (by simp), Function.update_self]
  refine hk₃.date_out hdelay ?_
  refine ⟨fun x hx => ?_, ?_, fun u hu => ?_, fun u hu hu' => ?_, fun hm => ?_, fun hm => ?_,
    fun x hx hx' => ?_, hl, hr, hv⟩
  · rw [hdl x hx, hdl₂, hdl₁]
    rfl
  · rw [hbl]
    exact Function.update_self ..
  · have hut : u ≠ t := fun e => hout (e ▸ List.mem_of_mem_head? hu)
    rw [hbl, Function.update_of_ne hut, hnext, Option.mem_def.mp hu]
    exact Function.update_self ..
  · rw [hbl, Function.update_of_ne hu, hnext]
    cases hh : (m.map Prod.fst).head? with
    | none => rfl
    | some v =>
      refine Function.update_of_ne ?_ ..
      rintro rfl
      exact hu' hh
  · refine hself.trans ?_
    have := hdiffs.2
    rw [hm] at this
    exact this
  · refine hself.trans ?_
    show k.delta_time (.tcb t) = k₂.delta_time .os_dly + k₂.delta_time (.tcb t)
    rw [hde₂, hde₁, hz]
    omega
  · have hx'' : x ≠ .os_dly := hx
    rw [hde x hx', Function.update_of_ne hx'']

omit [Fintype T] in
theorem Queues.release_delay (q : Queues M S T) (t : T) (m : List (T × Nat)) :
    Queues.release { q with delay := m } t = { q.release t with delay := m } := by
  cases hplace : q.place t with
  | none => simp only [Queues.release, Queues.put, Queues.enlist, Queues.ready, take, hplace]
  | some h => simp only [Queues.release, Queues.put, Queues.enlist, Queues.ready, take, hplace]

omit [Fintype T] in
theorem Queues.release_now (q : Queues M S T) (t : T) : (q.release t).now = q.now := by
  show (q.take t).now = q.now
  rw [take_now]

omit [Fintype T] in
/-- The release of a task is nothing to the others. -/
theorem Queues.release_other (q : Queues M S T) {t u : T} (hu : u ≠ t) :
    (q.release t).stale u = q.stale u ∧ (q.release t).place u = q.place u := by
  constructor
  · show Function.update (q.take t).stale t false u = _
    rw [Function.update_of_ne hu, take_stale]
  · show Function.update (q.take t).place t _ u = _
    rw [Function.update_of_ne hu, take_place_of_ne hu]

/-- The loop of `rt_dec_dly` makes ready the tasks that are due, in the order of the list. -/
theorem release_all_rep {n : Nat} (hk : Rep k q) (hq : q.delay = m) (hn : m.length < n)
    (hm : ∀ p ∈ m, p.2 ≤ q.now → q.stale p.1 = false ∧ q.place p.1 ≠ some .rdy) :
    ∃ k', rt_dec_dly.release n k = (.ok (), k') ∧
      Rep k' (((m.takeWhile fun p => p.2 ≤ q.now).map Prod.fst).foldl Queues.release
        { q with delay := m.dropWhile fun p => p.2 ≤ q.now }) := by
  induction m generalizing k q n with
  | nil =>
    cases n with
    | zero => cases hn
    | succ n =>
      have hnone : k.p_dlnk .os_dly = none := by rw [hk.dlinks.head?, Queues.delayed, hq]; rfl
      refine ⟨k, ?_, ?_⟩
      · simp only [rt_dec_dly.release, run_bind_ok (run_read k), hnone]
        rfl
      · show Rep k { q with delay := [] }
        rw [← hq]
        exact hk
  | cons c m ih =>
    obtain ⟨t, d⟩ := c
    cases n with
    | zero => cases hn
    | succ n =>
      simp only [List.takeWhile_cons, List.dropWhile_cons]
      by_cases hd : d ≤ q.now
      · obtain ⟨hst, hrdy⟩ := hm (t, d) List.mem_cons_self hd
        obtain ⟨k₁, hrun, hk₁⟩ := release_rep (n := n) hk hq hd hst hrdy
        have hout : t ∉ m.map Prod.fst := by
          have := hk.wf.delayed
          rw [Queues.delayed, hq] at this
          exact (List.nodup_cons.mp this).1
        have hnow : ({ q.release t with delay := m } : Queues M S T).now = q.now := q.release_now t
        obtain ⟨k', hrun', hk'⟩ := ih hk₁ rfl (by simpa using hn) (by
          intro p hp hle
          rw [hnow] at hle
          have hpt : p.1 ≠ t := fun e => hout (e ▸ List.mem_map_of_mem hp)
          obtain ⟨h₁, h₂⟩ := q.release_other hpt
          have hold := hm p (List.mem_cons_of_mem _ hp) hle
          exact ⟨h₁.trans hold.1, fun h => hold.2 (h₂.symm.trans h)⟩)
        refine ⟨k', hrun.trans hrun', ?_⟩
        simp only [hd, decide_true, if_true, List.map_cons, List.foldl_cons]
        rw [Queues.release_delay]
        simp only [Queues.release_now] at hk' ⊢
        exact hk'
      · have hhead : k.p_dlnk .os_dly = some t := by rw [hk.dlinks.head?, Queues.delayed, hq]; rfl
        have hz : k.delta_time .os_dly ≠ 0 := by
          have hdiffs := hk.diffs
          rw [hq] at hdiffs
          have := hdiffs.1
          omega
        refine ⟨k, ?_, ?_⟩
        · simp only [rt_dec_dly.release, run_bind_ok (run_read k), hhead, hz, if_false]
          rfl
        · simp only [hd, decide_false]
          show Rep k { q with delay := (t, d) :: m }
          rw [← hq]
          exact hk

omit [DecidableEq M] [DecidableEq S] [DecidableEq T] [Fintype T] in
/-- Dates kept as differences are sorted: behind one that is ahead all are. -/
theorem Rep.ahead (hk : Rep k q) (hq : q.delay = m) (hm : ∀ c ∈ m.head?, q.now < c.2) :
    ∀ c ∈ m, q.now < c.2 := by
  cases m with
  | nil => exact nofun
  | cons c m =>
    obtain ⟨t, d⟩ := c
    have hd : q.now < d := hm (t, d) rfl
    have hdiffs := hk.diffs
    rw [hq] at hdiffs
    intro c hc
    rcases List.mem_cons.mp hc with rfl | hc
    · exact hd
    · exact Nat.lt_of_lt_of_le hd (hdiffs.2.le c hc)

/-- **`rt_dec_dly` counts the tick and makes ready exactly the tasks that are due at it.** -/
theorem dec_dly_rep (hk : Rel k q)
    (hm : ∀ p ∈ q.delay, p.2 ≤ q.now + 1 → q.stale p.1 = false ∧ q.place p.1 ≠ some .rdy) :
    ∃ k', rt_dec_dly k = (.ok (), k') ∧
      Rep k' (((q.delay.takeWhile fun p => p.2 ≤ q.now + 1).map Prod.fst).foldl Queues.release
        { q with now := q.now + 1, delay := q.delay.dropWhile fun p => p.2 ≤ q.now + 1 }) := by
  obtain ⟨hk, hfuture⟩ := hk
  have hwf : Wf { q with now := q.now + 1 } :=
    ⟨hk.wf.nodup, hk.wf.place, hk.wf.delayed, fun p hp => by
      have := hk.wf.soon p hp
      show p.2 ≤ q.now + 1 + 65534
      omega, hk.wf.fresh⟩
  unfold rt_dec_dly
  rw [run_bind_ok (run_read k)]
  cases hq : q.delay with
  | nil =>
    have hnone : k.p_dlnk .os_dly = none := by rw [hk.dlinks.head?, Queues.delayed, hq]; rfl
    rw [if_pos hnone]
    refine ⟨k, rfl, ?_⟩
    show Rep k { q with now := q.now + 1, delay := [] }
    rw [← hq]
    refine ⟨hwf, hk.links, hk.backs, hk.front, hk.dlinks, hk.dbacks, hk.undated, ?_, hk.vars⟩
    have hdiffs := hk.diffs
    rw [hq] at hdiffs
    show Diffs DCB.tcb k.delta_time (q.now + 1) .os_dly q.delay
    rw [hq]
    exact hdiffs
  | cons c m =>
    obtain ⟨t, d⟩ := c
    have hd : q.now < d := hfuture (t, d) (by rw [hq]; exact List.mem_cons_self)
    have hsoon : d ≤ q.now + 65534 := hk.wf.soon (t, d) (by rw [hq]; exact List.mem_cons_self)
    have hdiffs : Diffs DCB.tcb k.delta_time q.now .os_dly ((t, d) :: m) := hq ▸ hk.diffs
    have hfirst := hdiffs.1
    have hsome : k.p_dlnk .os_dly ≠ none := by
      rw [hk.dlinks.head?, Queues.delayed, hq]
      simp
    rw [if_neg hsome]
    have hdec : u16 (k.delta_time .os_dly + 65535) = k.delta_time .os_dly - 1 := by
      unfold u16
      omega
    have hk₁ : Rep { k with
        delta_time := Function.update k.delta_time .os_dly (u16 (k.delta_time .os_dly + 65535)) }
        { q with now := q.now + 1 } := by
      refine ⟨hwf, hk.links, hk.backs, hk.front, hk.dlinks, hk.dbacks, hk.undated, ?_, hk.vars⟩
      show Diffs DCB.tcb (Function.update k.delta_time .os_dly _) (q.now + 1) .os_dly q.delay
      rw [hq]
      refine ⟨by rw [Function.update_self, hdec]; omega, hdiffs.2.congr fun n hn => ?_⟩
      refine Function.update_of_ne ?_ ..
      rintro rfl
      simp at hn
    have hlen : ((t, d) :: m).length < listFuel T := by
      have := listFuel_lt hk.wf.delayed
      rwa [List.length_map, hq] at this
    obtain ⟨k', hrun, hk'⟩ := release_all_rep hk₁ hq hlen (by rw [← hq]; exact hm)
    exact ⟨k', hrun, hk'⟩

/-! ## All calls -/

theorem require_ok {σ : Type} {c : Prop} [Decidable c] {m : Exec σ Fault Unit} {s s' : σ} {a : Unit}
    (h : require c m s = (.ok a, s')) : c ∧ m s = (.ok a, s') := by
  unfold require at h
  split at h
  · rename_i hc
    exact ⟨hc, h⟩
  · cases h

omit [DecidableEq M] [DecidableEq S] [DecidableEq T] [Fintype T] in
/-- Nothing has been done to the delay list. -/
theorem Rel.keep {q' : Queues M S T} (hk : Rel k q) (hk' : Rep k' q') (hd : q'.delay = q.delay)
    (hn : q'.now = q.now) : Rel k' q' :=
  ⟨hk', by rw [hd, hn]; exact hk.2⟩

omit [Fintype T] in
theorem init_links_rep (hk : Rep k q) (ht : q.place t = none) (hd : t ∉ q.delayed) :
    ∃ k', init_links t k = (.ok (), k') ∧
      Rep k' { q with stale := Function.update q.stale t false } := by
  have hne : ∀ u h, u ∈ q.queue h → u ≠ t := by
    rintro u h hu rfl
    exact hk.wf.out ht h hu
  have hdne : ∀ u ∈ q.delayed, u ≠ t := fun u hu e => hd (e ▸ hu)
  have hdn : ∀ n ∈ DCB.os_dly :: q.delayed.map DCB.tcb, n ≠ DCB.tcb t := by
    rintro n hn rfl
    rcases List.mem_cons.mp hn with hn | hn
    · cases hn
    · obtain ⟨u, hu, he⟩ := List.mem_map.mp hn
      cases he
      exact hd hu
  refine ⟨_, rfl, hk.wf.stale ht false, fun h => ?_, fun h hs => ?_, fun u hu hst => ?_, ?_, ?_,
    fun u hu => ?_, ?_, hk.vars⟩
  · refine (hk.links h).congr fun n hn => Function.update_of_ne ?_ ..
    rintro rfl
    exact hk.wf.tcb_out ht h hn
  · exact (hk.backs h hs).congr fun u hu => Function.update_of_ne (hne u h hu) ..
  · by_cases hut : u = t
    · subst hut
      exact Function.update_self ..
    · exact (Function.update_of_ne hut ..).trans
        (hk.front u hu (by simpa [Function.update_of_ne hut] using hst))
  · exact hk.dlinks.congr fun n hn => Function.update_of_ne (hdn n hn) ..
  · exact hk.dbacks.congr fun u hu => Function.update_of_ne (hdne u hu) ..
  · by_cases hut : u = t
    · subst hut
      exact Function.update_self ..
    · exact (Function.update_of_ne hut ..).trans (hk.undated u hu)
  · exact hk.diffs.congr fun n hn => Function.update_of_ne (hdn n hn) ..

omit [Fintype T] in
theorem Queues.foldl_release (l : List T) (q : Queues M S T) :
    (l.foldl Queues.release q).delay = q.delay ∧ (l.foldl Queues.release q).now = q.now := by
  induction l generalizing q with
  | nil => exact ⟨rfl, rfl⟩
  | cons t l ih =>
    obtain ⟨h₁, h₂⟩ := ih (q.release t)
    rw [List.foldl_cons, h₁, h₂]
    exact ⟨take_delay, q.release_now t⟩

/-- **What is not refused on the lists is done on the pointers.** -/
theorem Op.sim (o : Op M S T) : Exec.Sim Rel o.low o.high := by
  intro k q a q' hk hn
  cases o with
  | fault e => cases hn
  | get =>
    cases hn
    exact ⟨k, by rw [← hk.1.vars]; rfl, hk⟩
  | modify f =>
    cases hn
    exact ⟨_, rfl, hk.keep (hk.1.modify f) rfl rfl⟩
  | lnk h =>
    cases hn
    exact ⟨k, by rw [← (hk.1.links h).head?]; rfl, hk⟩
  | put_prio h t =>
    obtain ⟨ht, hn⟩ := require_ok hn
    cases hn
    obtain ⟨k', hrun, hk', -, -⟩ := put_prio_rep (h := h) hk.1 ht
    exact ⟨k', hrun, hk.keep hk' rfl rfl⟩
  | get_first h =>
    cases hq : q.queue h with
    | nil => simp [Op.high, hq] at hn
    | cons t l =>
      simp only [Op.high, hq] at hn
      cases hn
      obtain ⟨k', hrun, hk'⟩ := get_first_rep hk.1 hq
      exact ⟨k', hrun, hk.keep hk' take_delay take_now⟩
  | put_rdy_first t =>
    obtain ⟨ht, hn⟩ := require_ok hn
    cases hn
    obtain ⟨k', hrun, hk'⟩ := put_rdy_first_rep hk.1 ht
    exact ⟨k', hrun, hk.keep hk' rfl rfl⟩
  | get_same_rdy_prio =>
    cases hq : q.queue .rdy with
    | nil => simp [Op.high, hq] at hn
    | cons t l =>
      cases hrun : q.vars.run with
      | none => simp [Op.high, hq, hrun] at hn
      | some u =>
        obtain ⟨k', hrun', hk'⟩ := get_same_rdy_prio_rep hk.1 hq hrun
        simp only [Op.high, hq, hrun] at hn
        by_cases hp : q.vars.prio t = q.vars.prio u
        · rw [if_pos hp] at hn hrun' hk'
          cases hn
          exact ⟨k', hrun', hk.keep hk' take_delay take_now⟩
        · rw [if_neg hp] at hn hrun' hk'
          cases hn
          exact ⟨k', hrun', hk.keep hk' rfl rfl⟩
  | resort_prio t =>
    cases hplace : q.place t with
    | none =>
      simp only [Op.high, hplace] at hn
      obtain ⟨⟨hst, hrdy⟩, hn⟩ := require_ok hn
      cases hn
      refine ⟨k, ?_, hk⟩
      show rt_resort_prio t k = _
      unfold rt_resort_prio
      rw [run_bind_ok (run_read k), hk.1.front t (.inl hplace) hst]
      simp only [hk.1.vars, if_neg hrdy]
      rfl
    | some h =>
      have hcase : (h = .rdy → q.vars.state t = .READY) ∧ q' = (q.take t).put h t := by
        cases h with
        | rdy =>
          simp only [Op.high, hplace] at hn
          obtain ⟨hc, hn⟩ := require_ok hn
          cases hn
          exact ⟨fun _ => hc.2, rfl⟩
        | mucb m =>
          simp only [Op.high, hplace] at hn
          cases hn
          exact ⟨nofun, rfl⟩
        | scb s =>
          simp only [Op.high, hplace] at hn
          cases hn
          exact ⟨nofun, rfl⟩
      obtain ⟨hrdy, rfl⟩ := hcase
      obtain ⟨k', hrun, hk'⟩ := resort_prio_rep hk.1 hplace hrdy
      exact ⟨k', hrun, hk.keep hk' take_delay take_now⟩
  | put_only h t =>
    obtain ⟨⟨hq, ht, hs⟩, hn⟩ := require_ok hn
    cases hn
    obtain ⟨k', hrun, hk'⟩ := put_only_rep hk.1 hq ht hs
    exact ⟨k', hrun, hk.keep hk' rfl rfl⟩
  | put_dly t d =>
    obtain ⟨⟨ht, hd⟩, hn⟩ := require_ok hn
    cases hn
    obtain ⟨k', hrun, hk'⟩ := put_dly_rep hk.1 ht hd
    refine ⟨k', hrun, hk', fun p hp => ?_⟩
    rcases mem_putDate.mp hp with rfl | hp
    · show q.now < q.now + d
      omega
    · exact hk.2 p hp
  | dec_dly =>
    obtain ⟨hm, hn⟩ := require_ok hn
    cases hn
    obtain ⟨k', hrun, hk'⟩ := dec_dly_rep hk hm
    refine ⟨k', hrun, hk', ?_⟩
    refine hk'.ahead rfl fun c hc => ?_
    rw [(Queues.foldl_release _ _).1] at hc
    rw [(Queues.foldl_release _ _).2]
    have := List.head?_dropWhile_not (fun p : T × Nat => decide (p.2 ≤ q.now + 1)) q.delay
    rw [show (q.delay.dropWhile fun p => p.2 ≤ q.now + 1).head? = some c from hc] at this
    simpa using this
  | rmv_list t =>
    obtain ⟨hst, hn⟩ := require_ok hn
    cases hn
    obtain ⟨k', hrun, hk'⟩ := rmv_list_rep hk.1 hst
    exact ⟨k', hrun, hk.keep hk' take_delay take_now⟩
  | rmv_dly t =>
    cases hn
    obtain ⟨k', hrun, hk'⟩ := rmv_dly_rep (t := t) hk.1
    exact ⟨k', hrun, hk', fun p hp => hk.2 p (List.mem_of_mem_filter hp)⟩
  | init_links t =>
    obtain ⟨⟨ht, hd⟩, hn⟩ := require_ok hn
    cases hn
    obtain ⟨k', hrun, hk'⟩ := init_links_rep hk.1 ht hd
    exact ⟨k', hrun, hk.keep hk' rfl rfl⟩

end Expedition.Rtx
