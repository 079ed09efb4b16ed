import Expedition.Rtx.Queues

/-!
# The ready list and the waiting lists refine lists

`Rep k q` says that the links of the kernel `k` are those of the lists `q`.  For each function of
`rt_List.c` that works on the lists chained by `p_lnk`, the heap it leaves is computed first (`_run`)
and then shown to represent what the call leaves of the lists.
-/

namespace Expedition.Rtx

open Exec Linked Queues

variable {M S T : Type}

/-- The links of `k` are those of the lists `q`. -/
structure Rep (k : Kernel M S T) (q : Queues M S T) : Prop where
  wf : q.Wf
  links : ∀ h, Chain XCB.tcb k.p_lnk (.head h) (q.queue h)
  backs : ∀ h, h.sem_mbx = true → Backs XCB.tcb k.p_rlnk (.head h) (q.queue h)
  front : ∀ t, q.place t = none ∨ q.place t = some .rdy → q.stale t = false → k.p_rlnk t = none
  dlinks : Chain DCB.tcb k.p_dlnk .os_dly q.delayed
  dbacks : Backs DCB.tcb k.p_blnk .os_dly q.delayed
  undated : ∀ t, t ∉ q.delayed → k.p_blnk t = none
  diffs : Diffs DCB.tcb k.delta_time q.now .os_dly q.delay
  vars : k.vars = q.vars

/-- A task in a list is not the only place its control block is looked at: nodes of other lists are
others. -/
theorem Queues.Wf.tcb_out {q : Queues M S T} (hq : q.Wf) {t : T} (ht : q.place t = none)
    (h : Head M S) : XCB.tcb t ∉ q.nodes h := by
  intro hn
  rcases List.mem_cons.mp hn with he | hn
  · cases he
  · obtain ⟨u, hu, he⟩ := List.mem_map.mp hn
    cases he
    exact hq.out ht h hu

variable [DecidableEq M] [DecidableEq S] [DecidableEq T]

/-! ## Lists of tasks by priority -/

omit [DecidableEq T] in
theorem mem_putPrio {prio : T → Nat} {t u : T} {l : List T} :
    u ∈ putPrio prio t l ↔ u = t ∨ u ∈ l := by
  conv_rhs => rw [← List.takeWhile_append_dropWhile (p := fun u => prio t ≤ prio u) (l := l)]
  simp only [putPrio, List.mem_append, List.mem_cons]
  tauto

omit [DecidableEq T] in
theorem mem_putDate {t : T} {d : Nat} {l : List (T × Nat)} {p : T × Nat} :
    p ∈ putDate t d l ↔ p = (t, d) ∨ p ∈ l := by
  conv_rhs => rw [← List.takeWhile_append_dropWhile (p := fun p : T × Nat => p.2 < d) (l := l)]
  simp only [putDate, List.mem_append, List.mem_cons]
  tauto

omit [DecidableEq T] in
theorem nodup_putPrio {prio : T → Nat} {t : T} {l : List T} (hl : l.Nodup) (ht : t ∉ l) :
    (putPrio prio t l).Nodup := by
  have hp : List.Perm (putPrio prio t l) (t :: l) := by
    conv_rhs => rw [← List.takeWhile_append_dropWhile (p := fun u => prio t ≤ prio u) (l := l)]
    exact List.perm_middle
  exact hp.nodup_iff.mpr (List.nodup_cons.mpr ⟨ht, hl⟩)

/-! ## Well-formedness -/

namespace Queues

variable {q : Queues M S T} {h : Head M S} {t : T} {l : List T}

/-- A list in which `t` is new. -/
theorem Wf.enlist (hq : q.Wf) (ht : q.place t = none) (hl : l.Nodup)
    (hmem : ∀ u, u ∈ l ↔ u = t ∨ u ∈ q.queue h) : (q.enlist h t l).Wf := by
  refine ⟨fun h' => ?_, fun h' u => ?_, hq.delayed, hq.soon, fun u h' hu => ?_⟩
  · show (Function.update q.queue h l h').Nodup
    by_cases hh : h' = h
    · subst hh
      rw [Function.update_self]
      exact hl
    · rw [Function.update_of_ne hh]
      exact hq.nodup h'
  · show u ∈ Function.update q.queue h l h' ↔ Function.update q.place t (some h) u = some h'
    by_cases hu : u = t
    · subst hu
      rw [Function.update_self]
      by_cases hh : h' = h
      · subst hh
        simp [hmem]
      · rw [Function.update_of_ne hh]
        simp only [Option.some.injEq, Ne.symm hh, iff_false]
        exact hq.out ht h'
    · rw [Function.update_of_ne hu, ← hq.place]
      by_cases hh : h' = h
      · subst hh
        simp [hmem, hu]
      · rw [Function.update_of_ne hh]
  · show Function.update q.stale t false u = false
    by_cases hut : u = t
    · subst hut
      exact Function.update_self ..
    · rw [Function.update_of_ne hut]
      exact hq.fresh u h' (by simpa [Queues.enlist, Function.update_of_ne hut] using hu)

theorem take_none (ht : q.place t = none) : q.take t = q := by
  unfold Queues.take
  rw [ht]

theorem take_some (ht : q.place t = some h) : q.take t =
    { q with
      queue := Function.update q.queue h ((q.queue h).erase t)
      place := Function.update q.place t none } := by
  unfold Queues.take
  rw [ht]

@[simp] theorem take_place_self : (q.take t).place t = none := by
  cases ht : q.place t with
  | none => rw [take_none ht, ht]
  | some h => rw [take_some ht]; exact Function.update_self ..

theorem take_place_of_ne {u : T} (hu : u ≠ t) : (q.take t).place u = q.place u := by
  cases ht : q.place t with
  | none => rw [take_none ht]
  | some h => rw [take_some ht]; exact Function.update_of_ne hu ..

@[simp] theorem take_delay : (q.take t).delay = q.delay := by
  cases ht : q.place t with
  | none => rw [take_none ht]
  | some h => rw [take_some ht]

@[simp] theorem take_now : (q.take t).now = q.now := by
  cases ht : q.place t with
  | none => rw [take_none ht]
  | some h => rw [take_some ht]

@[simp] theorem take_stale : (q.take t).stale = q.stale := by
  cases ht : q.place t with
  | none => rw [take_none ht]
  | some h => rw [take_some ht]

@[simp] theorem take_vars : (q.take t).vars = q.vars := by
  cases ht : q.place t with
  | none => rw [take_none ht]
  | some h => rw [take_some ht]

/-- A task taken out is in no list. -/
theorem Wf.take_queue (hq : q.Wf) (h : Head M S) : (q.take t).queue h = (q.queue h).erase t := by
  cases ht : q.place t with
  | none => rw [take_none ht, List.erase_of_not_mem (hq.out ht h)]
  | some h' =>
    rw [take_some ht]
    by_cases hh : h = h'
    · subst hh
      exact Function.update_self ..
    · show Function.update q.queue h' _ h = _
      rw [Function.update_of_ne hh, List.erase_of_not_mem]
      intro hm
      rw [(hq.place h t).mp hm] at ht
      exact hh (Option.some.inj ht)

theorem Wf.take (hq : q.Wf) : (q.take t).Wf := by
  refine ⟨fun h => ?_, fun h u => ?_, ?_, ?_, fun u h hu => ?_⟩
  · rw [hq.take_queue]
    exact (hq.nodup h).erase t
  · rw [hq.take_queue, (hq.nodup h).mem_erase_iff, hq.place]
    by_cases hu : u = t
    · subst hu
      simp
    · rw [take_place_of_ne hu]
      simp [hu]
  · rw [Queues.delayed, take_delay]
    exact hq.delayed
  · rw [take_delay, take_now]
    exact hq.soon
  · rw [take_stale]
    by_cases hut : u = t
    · subst hut
      rw [take_place_self] at hu
      cases hu
    · rw [take_place_of_ne hut] at hu
      exact hq.fresh u h hu

omit [DecidableEq M] [DecidableEq S] in
/-- What is known of a task in no list does not bear on the lists. -/
theorem Wf.stale (hq : q.Wf) (ht : q.place t = none) (b : Bool) :
    Wf { q with stale := Function.update q.stale t b } := by
  refine ⟨hq.nodup, hq.place, hq.delayed, hq.soon, fun u h hu => ?_⟩
  have hut : u ≠ t := by
    rintro rfl
    rw [show q.place u = some h from hu] at ht
    cases ht
  show Function.update q.stale t b u = false
  rw [Function.update_of_ne hut]
  exact hq.fresh u h hu

end Queues

/-! ## Putting a task into a list -/

section Enlist

variable {k k' : Kernel M S T} {q : Queues M S T} {h : Head M S} {t : T} {l₁ l₂ : List T}

/-- What putting `t` in behind `l₁` writes: the link of the node before it and its own, and, in a list
chained both ways, the back links of `t` and of the task behind it. -/
structure Enlists (k k' : Kernel M S T) (h : Head M S) (t : T) (l₁ l₂ : List T) : Prop where
  p_lnk : k'.p_lnk = Function.update
    (Function.update k.p_lnk (.tcb t) (k.p_lnk (lastCell .tcb (.head h) l₁)))
    (lastCell .tcb (.head h) l₁) (some t)
  self : k'.p_rlnk t = if h.sem_mbx then some (lastCell .tcb (.head h) l₁) else none
  behind : h.sem_mbx = true → ∀ u ∈ l₂.head?, k'.p_rlnk u = some (.tcb t)
  other : ∀ u, u ≠ t → (h.sem_mbx = true → u ∉ l₂.head?) → k'.p_rlnk u = k.p_rlnk u
  rest : k'.p_dlnk = k.p_dlnk ∧ k'.p_blnk = k.p_blnk ∧ k'.delta_time = k.delta_time ∧ k'.vars = k.vars

omit [DecidableEq M] [DecidableEq S] in
theorem Head.sem_mbx_iff : h.sem_mbx = true ↔ h ≠ .rdy := by
  cases h <;> simp [Head.sem_mbx]

/-- **The heap with `t` put in represents the lists with `t` put in.** -/
theorem Rep.enlist (hk : Rep k q) (ht : q.place t = none) (hq : q.queue h = l₁ ++ l₂)
    (he : Enlists k k' h t l₁ l₂) : Rep k' (q.enlist h t (l₁ ++ t :: l₂)) := by
  have hmem : ∀ u, u ∈ l₁ ++ t :: l₂ ↔ u = t ∨ u ∈ q.queue h := by
    intro u
    rw [hq]
    simp only [List.mem_append, List.mem_cons]
    tauto
  have hnodes := hk.wf.nodes_nodup h
  have htout := hk.wf.tcb_out ht
  have hlast : lastCell XCB.tcb (.head h) l₁ ∈ q.nodes h := by
    have := lastCell_mem XCB.tcb (XCB.head h) l₁
    rw [Queues.nodes, hq, List.map_append, ← List.cons_append]
    exact List.mem_append_left _ this
  have hl₂ : ∀ u ∈ l₂.head?, q.place u = some h := by
    intro u hu
    rw [← hk.wf.place, hq]
    exact List.mem_append_right _ (List.mem_of_mem_head? hu)
  have hne : ∀ u, q.place u ≠ none → u ≠ t := by
    rintro u hu rfl
    exact hu ht
  have hqueue : ∀ h', h' ≠ h → (q.enlist h t (l₁ ++ t :: l₂)).queue h' = q.queue h' :=
    fun h' hh => Function.update_of_ne hh ..
  have hself : (q.enlist h t (l₁ ++ t :: l₂)).queue h = l₁ ++ t :: l₂ := Function.update_self ..
  refine ⟨hk.wf.enlist ht ?_ hmem, fun h' => ?_, fun h' hs => ?_, fun u hu hst => ?_, ?_, ?_, ?_, ?_,
    ?_⟩
  · rw [List.nodup_middle, ← hq, List.nodup_cons]
    exact ⟨hk.wf.out ht h, hk.wf.nodup h⟩
  · by_cases hh : h' = h
    · subst hh
      rw [hself, he.p_lnk]
      rw [Queues.nodes, hq] at hnodes
      exact (hq ▸ hk.links h').insert hnodes (by simpa only [Queues.nodes, hq] using htout h')
    · rw [hqueue h' hh, he.p_lnk]
      refine (hk.links h').congr fun n hn => ?_
      have hn₁ : n ≠ lastCell XCB.tcb (.head h) l₁ := fun e => hk.wf.apart hh hlast (e ▸ hn)
      have hn₂ : n ≠ .tcb t := fun e => htout h' (e ▸ hn)
      rw [Function.update_of_ne hn₁, Function.update_of_ne hn₂]
  · by_cases hh : h' = h
    · subst hh
      rw [hself]
      have hin : ∀ u ∈ q.queue h', u ≠ t := fun u hu => hne u (by simp [(hk.wf.place h' u).mp hu])
      have hnd := hq ▸ hk.wf.nodup h'
      refine (hq ▸ hk.backs h' hs).insert (by rw [he.self, if_pos hs]) (fun u hu => ?_)
        (he.behind hs) (fun u hu => ?_)
      · refine he.other u (hin u (hq ▸ List.mem_append_left _ hu)) fun _ hu' => ?_
        exact (List.nodup_append.mp hnd).2.2 u hu u (List.mem_of_mem_head? hu') rfl
      · cases l₂ with
        | nil => cases hu
        | cons v l₂ =>
          refine he.other u (hin u (hq ▸ List.mem_append_right _ (List.mem_cons_of_mem _ hu))) ?_
          intro _ hu'
          obtain rfl := Option.some.inj hu'
          exact (List.nodup_cons.mp (List.nodup_append.mp hnd).2.1).1 hu
    · rw [hqueue h' hh]
      refine (hk.backs h' hs).congr fun u hu => he.other u (hne u ?_) fun _ hu' => ?_
      · rw [(hk.wf.place h' u).mp hu]
        simp
      · have := (hk.wf.place h' u).mp hu
        rw [hl₂ u hu'] at this
        exact hh (Option.some.inj this).symm
  · by_cases hut : u = t
    · subst hut
      rw [he.self]
      have hrdy : h = .rdy := by simpa [Queues.enlist] using hu
      simp [hrdy, Head.sem_mbx]
    · have hu' : q.place u = none ∨ q.place u = some .rdy := by
        simpa [Queues.enlist, Function.update_of_ne hut] using hu
      have hst' : q.stale u = false := by
        simpa [Queues.enlist, Function.update_of_ne hut] using hst
      rw [he.other u hut, hk.front u hu' hst']
      intro hs hm
      rw [hl₂ u hm] at hu'
      rcases hu' with hu' | hu'
      · cases hu'
      · exact Head.sem_mbx_iff.mp hs (Option.some.inj hu')
  · rw [he.rest.1]; exact hk.dlinks
  · rw [he.rest.2.1]; exact hk.dbacks
  · rw [he.rest.2.1]; exact hk.undated
  · rw [he.rest.2.2.1]; exact hk.diffs
  · rw [he.rest.2.2.2]; exact hk.vars

end Enlist

/-! ## Taking a task out of its list -/

section Delist

variable {k k' : Kernel M S T} {q : Queues M S T} {h : Head M S} {t : T} {l₁ l₂ : List T}

/-- What taking `t` out from behind `l₁` writes.  What its own links are then is left open. -/
structure Delists (k k' : Kernel M S T) (h : Head M S) (t : T) (l₁ l₂ : List T) : Prop where
  p_lnk : ∀ n, n ≠ .tcb t → k'.p_lnk n =
    Function.update k.p_lnk (lastCell .tcb (.head h) l₁) (k.p_lnk (.tcb t)) n
  behind : h.sem_mbx = true → ∀ u ∈ l₂.head?, k'.p_rlnk u = some (lastCell .tcb (.head h) l₁)
  other : ∀ u, u ≠ t → (h.sem_mbx = true → u ∉ l₂.head?) → k'.p_rlnk u = k.p_rlnk u
  rest : k'.p_dlnk = k.p_dlnk ∧ k'.p_blnk = k.p_blnk ∧ k'.delta_time = k.delta_time ∧ k'.vars = k.vars

omit [DecidableEq M] [DecidableEq S] [DecidableEq T] in
/-- A list with `t` in it, and what is left without it. -/
theorem Queues.Wf.split (hq : q.Wf) (hl : q.queue h = l₁ ++ t :: l₂) :
    q.place t = some h ∧ t ∉ l₁ ∧ t ∉ l₂ ∧ (l₁ ++ l₂).Nodup := by
  have hnd := hl ▸ hq.nodup h
  have ht : t ∈ q.queue h := by
    rw [hl]
    exact List.mem_append_right _ List.mem_cons_self
  have hout := List.nodup_middle.mp hnd
  rw [List.nodup_cons, List.mem_append, not_or] at hout
  exact ⟨(hq.place h t).mp ht, hout.1.1, hout.1.2, hout.2⟩

theorem Queues.Wf.take_split (hq : q.Wf) (hl : q.queue h = l₁ ++ t :: l₂) :
    (q.take t).queue h = l₁ ++ l₂ := by
  obtain ⟨-, ht₁, -, -⟩ := hq.split hl
  rw [hq.take_queue, hl, List.erase_append_right _ ht₁, List.erase_cons_head]

/-- **The heap with `t` taken out represents the lists with `t` taken out**; `t` counts as stale where
its back link is left. -/
theorem Rep.take (hk : Rep k q) (hl : q.queue h = l₁ ++ t :: l₂) (hd : Delists k k' h t l₁ l₂) {b : Bool}
    (hb : b = false → k'.p_rlnk t = none) :
    Rep k' { q.take t with stale := Function.update q.stale t b } := by
  obtain ⟨hplace, ht₁, ht₂, hnd⟩ := hk.wf.split hl
  have hself := hk.wf.take_split hl
  have hnodes := hk.wf.nodes_nodup h
  rw [Queues.nodes, hl] at hnodes
  have hlast : lastCell XCB.tcb (.head h) l₁ ∈ q.nodes h := by
    have := lastCell_mem XCB.tcb (XCB.head h) l₁
    rw [Queues.nodes, hl, List.map_append, ← List.cons_append]
    exact List.mem_append_left _ this
  have hl₂ : ∀ u ∈ l₂.head?, q.place u = some h ∧ u ≠ t := by
    intro u hu
    have hu' := List.mem_of_mem_head? hu
    refine ⟨?_, fun e => ht₂ (e ▸ hu')⟩
    rw [← hk.wf.place, hl]
    exact List.mem_append_right _ (List.mem_cons_of_mem _ hu')
  have hother : ∀ h', h' ≠ h → (q.take t).queue h' = q.queue h' := by
    intro h' hh
    rw [hk.wf.take_queue, List.erase_of_not_mem]
    intro hm
    rw [(hk.wf.place h' t).mp hm] at hplace
    exact hh (Option.some.inj hplace)
  have hwf : { q.take t with stale := Function.update q.stale t b }.Wf := by
    have := hk.wf.take.stale (take_place_self (q := q) (t := t)) b
    rwa [take_stale] at this
  refine ⟨hwf, fun h' => ?_, fun h' hs => ?_, fun u hu hst => ?_, ?_, ?_, ?_, ?_, ?_⟩
  · show Chain XCB.tcb k'.p_lnk (.head h') ((q.take t).queue h')
    by_cases hh : h' = h
    · subst hh
      rw [hself]
      refine ((hl ▸ hk.links h').remove hnodes).congr fun n hn => hd.p_lnk n ?_
      rintro rfl
      rcases List.mem_cons.mp hn with he | hn
      · cases he
      · obtain ⟨u, hu, he⟩ := List.mem_map.mp hn
        cases he
        exact (List.mem_append.mp hu).elim ht₁ ht₂
    · rw [hother h' hh]
      refine (hk.links h').congr fun n hn => ?_
      have hn₂ : n ≠ .tcb t := by
        rintro rfl
        refine hk.wf.apart hh ?_ hn
        rw [Queues.nodes, hl]
        simp
      have hn₁ : n ≠ lastCell XCB.tcb (.head h) l₁ := fun e => hk.wf.apart hh hlast (e ▸ hn)
      rw [hd.p_lnk n hn₂, Function.update_of_ne hn₁]
  · show Backs XCB.tcb k'.p_rlnk (.head h') ((q.take t).queue h')
    by_cases hh : h' = h
    · subst hh
      rw [hself]
      have hnd' := List.nodup_append.mp hnd
      refine (hl ▸ hk.backs h' hs).remove (fun u hu => ?_) (hd.behind hs) (fun u hu => ?_)
      · exact hd.other u (fun e => ht₁ (e ▸ hu)) fun _ hu' =>
          hnd'.2.2 u hu u (List.mem_of_mem_head? hu') rfl
      · cases l₂ with
        | nil => cases hu
        | cons v l₂ =>
          refine hd.other u (fun e => ht₂ (e ▸ List.mem_cons_of_mem _ hu)) fun _ hu' => ?_
          obtain rfl := Option.some.inj hu'
          exact (List.nodup_cons.mp hnd'.2.1).1 hu
    · rw [hother h' hh]
      refine (hk.backs h' hs).congr fun u hu => hd.other u ?_ fun _ hu' => ?_
      · rintro rfl
        rw [(hk.wf.place h' u).mp hu] at hplace
        exact hh (Option.some.inj hplace)
      · have := (hk.wf.place h' u).mp hu
        rw [(hl₂ u hu').1] at this
        exact hh (Option.some.inj this).symm
  · by_cases hut : u = t
    · subst hut
      exact hb (by simpa using hst)
    · have hu' : q.place u = none ∨ q.place u = some .rdy := by
        simpa only [take_place_of_ne hut] using hu
      rw [hd.other u hut, hk.front u hu' (by simpa [Function.update_of_ne hut] using hst)]
      intro hs hm
      rw [(hl₂ u hm).1] at hu'
      rcases hu' with hu' | hu'
      · cases hu'
      · exact Head.sem_mbx_iff.mp hs (Option.some.inj hu')
  · show Chain DCB.tcb k'.p_dlnk .os_dly ((q.take t).delay.map Prod.fst)
    rw [hd.rest.1, take_delay]
    exact hk.dlinks
  · show Backs DCB.tcb k'.p_blnk .os_dly ((q.take t).delay.map Prod.fst)
    rw [hd.rest.2.1, take_delay]
    exact hk.dbacks
  · intro u hu
    rw [hd.rest.2.1]
    exact hk.undated u (by simpa using hu)
  · show Diffs DCB.tcb k'.delta_time (q.take t).now .os_dly (q.take t).delay
    rw [hd.rest.2.2.1, take_delay, take_now]
    exact hk.diffs
  · show k'.vars = (q.take t).vars
    rw [hd.rest.2.2.2, take_vars]
    exact hk.vars

/-- The case in which the back link of `t` is cleared. -/
theorem Rep.take_clear (hk : Rep k q) (hl : q.queue h = l₁ ++ t :: l₂) (hd : Delists k k' h t l₁ l₂)
    (hb : k'.p_rlnk t = none) : Rep k' (q.take t) := by
  have hr := hk.take hl hd (b := q.stale t) fun _ => hb
  rw [Function.update_eq_self, ← take_stale (q := q) (t := t)] at hr
  exact hr

end Delist

end Expedition.Rtx
