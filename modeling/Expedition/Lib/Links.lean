import Mathlib.Data.List.Nodup
import Mathlib.Logic.Function.Basic
import Mathlib.Tactic.Common

/-!
# Linked lists in a heap of link fields

Nodes `N` are list headers and list elements; `cell t` is the node of the element `t`.  A heap has a
field `next : N → Option T` on every node, and possibly a field `prev : T → Option N` on every element.

* `Links cell next h l` — from `h` the field `next` leads through the elements of `l` and then ends.
* `Path cell next h l` — the same without the end; `lastCell cell h l` is the node it comes to.
* `Backs cell prev h l` — each element of `l` points back to the node before it.
* `Diffs cell delta a h l` — a list of dated elements keeps, on each node, the difference to the date
  of the next one.

Every edit of a list writes only the node before the place and the element put in or taken out:
`Links.insert`, `Links.remove` and their namesakes for `Backs` and `Diffs` say what the lists are then,
and the `congr` lemmas that all other lists are as they were.
-/

namespace Linked

variable {N T : Type} (cell : T → N)

/-- The node the elements `l` after `h` end at. -/
def lastCell : N → List T → N
  | h, [] => h
  | _, t :: l => lastCell (cell t) l

/-- From `h`, `next` leads through `l`. -/
def Path (next : N → Option T) : N → List T → Prop
  | _, [] => True
  | h, t :: l => next h = some t ∧ Path next (cell t) l

/-- From `h`, `next` leads through `l` and ends there. -/
def Chain (next : N → Option T) : N → List T → Prop
  | h, [] => next h = none
  | h, t :: l => next h = some t ∧ Chain next (cell t) l

/-- The elements of `l` point back, the first of them to `h`. -/
def Backs (prev : T → Option N) : N → List T → Prop
  | _, [] => True
  | h, t :: l => prev t = some h ∧ Backs prev (cell t) l

/-- The elements of `l`, each with its date, come after the date `a`; every node has the difference
to the date of the next one, and the last node has none. -/
def Diffs (delta : N → Nat) : Nat → N → List (T × Nat) → Prop
  | _, h, [] => delta h = 0
  | a, h, (t, d) :: l => a + delta h = d ∧ Diffs delta d (cell t) l

variable {cell} {next next' : N → Option T} {prev prev' : T → Option N} {h : N} {l l₁ l₂ : List T}
  {x : T}

/-! ## Ends and pieces -/

theorem lastCell_append : lastCell cell h (l₁ ++ l₂) = lastCell cell (lastCell cell h l₁) l₂ := by
  induction l₁ generalizing h with
  | nil => rfl
  | cons t l ih => exact ih

theorem lastCell_mem (cell : T → N) (h : N) (l : List T) : lastCell cell h l ∈ h :: l.map cell := by
  induction l generalizing h with
  | nil => exact List.mem_cons_self
  | cons t l ih => exact List.mem_cons_of_mem _ (ih (cell t))

theorem links_append :
    Chain cell next h (l₁ ++ l₂) ↔
      Path cell next h l₁ ∧ Chain cell next (lastCell cell h l₁) l₂ := by
  induction l₁ generalizing h with
  | nil => exact ⟨fun hl => ⟨trivial, hl⟩, fun hl => hl.2⟩
  | cons t l ih =>
    constructor
    · rintro ⟨hn, hl⟩
      exact ⟨⟨hn, (ih.mp hl).1⟩, (ih.mp hl).2⟩
    · rintro ⟨⟨hn, hp⟩, hl⟩
      exact ⟨hn, ih.mpr ⟨hp, hl⟩⟩

theorem backs_append :
    Backs cell prev h (l₁ ++ l₂) ↔
      Backs cell prev h l₁ ∧ Backs cell prev (lastCell cell h l₁) l₂ := by
  induction l₁ generalizing h with
  | nil => exact ⟨fun hl => ⟨trivial, hl⟩, fun hl => hl.2⟩
  | cons t l ih =>
    constructor
    · rintro ⟨hn, hl⟩
      exact ⟨⟨hn, (ih.mp hl).1⟩, (ih.mp hl).2⟩
    · rintro ⟨⟨hn, hp⟩, hl⟩
      exact ⟨hn, ih.mpr ⟨hp, hl⟩⟩

theorem Chain.head? (hl : Chain cell next h l) : next h = l.head? := by
  cases l with
  | nil => exact hl
  | cons t l => exact hl.1

/-- The field of the node before a place is the element at the place. -/
theorem Chain.at (hl : Chain cell next h (l₁ ++ l₂)) :
    next (lastCell cell h l₁) = l₂.head? :=
  Chain.head? (links_append.mp hl).2

/-- The field of an element is the one behind it. -/
theorem Chain.behind (hl : Chain cell next h (l₁ ++ x :: l₂)) : next (cell x) = l₂.head? := by
  obtain ⟨-, -, hl₂⟩ := links_append.mp hl
  exact hl₂.head?

/-- The list a header leads to is determined by the heap. -/
theorem Chain.unique (hl : Chain cell next h l) {l' : List T} (hl' : Chain cell next h l') :
    l = l' := by
  induction l generalizing h l' with
  | nil =>
    cases l' with
    | nil => rfl
    | cons t l' => exact absurd (hl.symm.trans hl'.1) (by simp)
  | cons t l ih =>
    cases l' with
    | nil => exact absurd (hl'.symm.trans hl.1) (by simp)
    | cons t' l' =>
      obtain rfl : t = t' := Option.some.inj (hl.1.symm.trans hl'.1)
      rw [ih hl.2 hl'.2]

/-! ## What other writes leave alone -/

theorem Chain.congr (hl : Chain cell next h l) (hc : ∀ n ∈ h :: l.map cell, next' n = next n) :
    Chain cell next' h l := by
  induction l generalizing h with
  | nil => exact (hc h List.mem_cons_self).trans hl
  | cons t l ih =>
    exact ⟨(hc h List.mem_cons_self).trans hl.1,
      ih hl.2 fun n hn => hc n (List.mem_cons_of_mem _ hn)⟩

/-- The node a path ends at is not read by it. -/
theorem Path.congr (hp : Path cell next h l) (hnd : (h :: l.map cell).Nodup)
    (hc : ∀ n ∈ h :: l.map cell, n ≠ lastCell cell h l → next' n = next n) :
    Path cell next' h l := by
  induction l generalizing h with
  | nil => trivial
  | cons t l ih =>
    obtain ⟨hh, hnd'⟩ := List.nodup_cons.mp hnd
    have hne : h ≠ lastCell cell (cell t) l := fun he => hh (he ▸ lastCell_mem cell (cell t) l)
    exact ⟨(hc h List.mem_cons_self hne).trans hp.1,
      ih hp.2 hnd' fun n hn => hc n (List.mem_cons_of_mem _ hn)⟩

theorem Backs.congr (hb : Backs cell prev h l) (hc : ∀ t ∈ l, prev' t = prev t) :
    Backs cell prev' h l := by
  induction l generalizing h with
  | nil => trivial
  | cons t l ih =>
    exact ⟨(hc t List.mem_cons_self).trans hb.1, ih hb.2 fun u hu => hc u (List.mem_cons_of_mem _ hu)⟩

/-- An element points back to the node before its place. -/
theorem Backs.at (hb : Backs cell prev h (l₁ ++ x :: l₂)) : prev x = some (lastCell cell h l₁) :=
  (backs_append.mp hb).2.1

/-! ## Putting in and taking out -/

theorem nodup_pieces (hnd : (h :: (l₁ ++ l₂).map cell).Nodup) :
    (h :: l₁.map cell).Nodup ∧ ∀ n ∈ h :: l₁.map cell, n ∉ l₂.map cell := by
  rw [List.map_append, ← List.cons_append, List.nodup_append] at hnd
  exact ⟨hnd.1, fun n hn hn' => hnd.2.2 n hn n hn' rfl⟩

section Edits

variable [DecidableEq N]

/-- Link `x` in after `l₁`: the node before points to it, and it to what came next. -/
theorem Chain.insert (hl : Chain cell next h (l₁ ++ l₂)) (hnd : (h :: (l₁ ++ l₂).map cell).Nodup)
    (hx : cell x ∉ h :: (l₁ ++ l₂).map cell) :
    Chain cell (Function.update (Function.update next (cell x) (next (lastCell cell h l₁)))
      (lastCell cell h l₁) (some x)) h (l₁ ++ x :: l₂) := by
  obtain ⟨hp, hl₂⟩ := links_append.mp hl
  obtain ⟨hnd₁, hdis⟩ := nodup_pieces hnd
  have hlast := lastCell_mem cell h l₁
  have hxl : cell x ≠ lastCell cell h l₁ := by
    intro he
    refine hx ?_
    rw [he, List.map_append, ← List.cons_append]
    exact List.mem_append_left _ hlast
  have hx₁ : ∀ n ∈ h :: l₁.map cell, n ≠ cell x := by
    rintro n hn rfl
    refine hx ?_
    rw [List.map_append, ← List.cons_append]
    exact List.mem_append_left _ hn
  refine links_append.mpr ⟨hp.congr hnd₁ fun n hn hne => ?_, ?_, ?_⟩
  · rw [Function.update_of_ne hne, Function.update_of_ne (hx₁ n hn)]
  · exact Function.update_self ..
  · -- behind `x` the old list goes on
    have hnext : Function.update (Function.update next (cell x) (next (lastCell cell h l₁)))
        (lastCell cell h l₁) (some x) (cell x) = l₂.head? := by
      rw [Function.update_of_ne hxl, Function.update_self, Chain.at hl]
    cases l₂ with
    | nil => exact hnext
    | cons t l₂ =>
      refine ⟨hnext, hl₂.2.congr fun n hn => ?_⟩
      have hne : n ≠ lastCell cell h l₁ := fun he => hdis _ hlast (he ▸ hn)
      have hnx : n ≠ cell x := by
        rintro rfl
        refine hx (List.mem_cons_of_mem _ ?_)
        rw [List.map_append]
        exact List.mem_append_right _ hn
      rw [Function.update_of_ne hne, Function.update_of_ne hnx]

/-- Link the element after `l₁` out: the node before points past it. -/
theorem Chain.remove (hl : Chain cell next h (l₁ ++ x :: l₂))
    (hnd : (h :: (l₁ ++ x :: l₂).map cell).Nodup) :
    Chain cell (Function.update next (lastCell cell h l₁) (next (cell x))) h (l₁ ++ l₂) := by
  obtain ⟨hp, -, hl₂⟩ := links_append.mp hl
  obtain ⟨hnd₁, hdis⟩ := nodup_pieces hnd
  have hlast := lastCell_mem cell h l₁
  refine links_append.mpr ⟨hp.congr hnd₁ fun n _ hne => Function.update_of_ne hne .., ?_⟩
  have hself : Function.update next (lastCell cell h l₁) (next (cell x)) (lastCell cell h l₁)
      = l₂.head? := by
    rw [Function.update_self, hl₂.head?]
  cases l₂ with
  | nil => exact hself
  | cons t l₂ =>
    refine ⟨hself, hl₂.2.congr fun n hn => ?_⟩
    have hne : n ≠ lastCell cell h l₁ :=
      fun he => hdis _ hlast (he ▸ List.mem_cons_of_mem _ hn)
    exact Function.update_of_ne hne ..

end Edits

/-- The way back into a list with `x` linked in after `l₁`: only `x` and the element behind it
change. -/
theorem Backs.insert (hb : Backs cell prev h (l₁ ++ l₂)) (hx : prev' x = some (lastCell cell h l₁))
    (h₁ : ∀ t ∈ l₁, prev' t = prev t)
    (h₂ : ∀ t ∈ l₂.head?, prev' t = some (cell x)) (h₃ : ∀ t ∈ l₂.tail, prev' t = prev t) :
    Backs cell prev' h (l₁ ++ x :: l₂) := by
  obtain ⟨hb₁, hb₂⟩ := backs_append.mp hb
  refine backs_append.mpr ⟨hb₁.congr h₁, hx, ?_⟩
  cases l₂ with
  | nil => trivial
  | cons t l₂ => exact ⟨h₂ t rfl, hb₂.2.congr h₃⟩

theorem Backs.remove (hb : Backs cell prev h (l₁ ++ x :: l₂))
    (h₁ : ∀ t ∈ l₁, prev' t = prev t) (h₂ : ∀ t ∈ l₂.head?, prev' t = some (lastCell cell h l₁))
    (h₃ : ∀ t ∈ l₂.tail, prev' t = prev t) : Backs cell prev' h (l₁ ++ l₂) := by
  obtain ⟨hb₁, -, hb₂⟩ := backs_append.mp hb
  refine backs_append.mpr ⟨hb₁.congr h₁, ?_⟩
  cases l₂ with
  | nil => trivial
  | cons t l₂ => exact ⟨h₂ t rfl, hb₂.2.congr h₃⟩

/-! ## Differences of dates -/

section Dates

variable {delta delta' : N → Nat} {a d : Nat} {m m₁ m₂ : List (T × Nat)}

variable (cell) in
/-- The differences along `l`, without what the last node has. -/
def Dates (delta : N → Nat) : Nat → N → List (T × Nat) → Prop
  | _, _, [] => True
  | a, h, (t, d) :: l => a + delta h = d ∧ Dates delta d (cell t) l

/-- The date a dated list ends at. -/
def lastDate : Nat → List (T × Nat) → Nat
  | a, [] => a
  | _, (_, d) :: l => lastDate d l

/-- The node a dated list ends at. -/
abbrev lastNode (cell : T → N) (h : N) (m : List (T × Nat)) : N := lastCell cell h (m.map Prod.fst)

theorem lastNode_mem (cell : T → N) (h : N) (m : List (T × Nat)) :
    lastNode cell h m ∈ h :: (m.map Prod.fst).map cell :=
  lastCell_mem ..

/-- A dated list ends at its last date, or at the date it starts from. -/
theorem lastDate_mem (a : Nat) (m : List (T × Nat)) :
    lastDate a m = a ∨ ∃ p ∈ m, lastDate a m = p.2 := by
  induction m generalizing a with
  | nil => exact .inl rfl
  | cons p m ih =>
    obtain ⟨t, d⟩ := p
    rcases ih d with h | ⟨p, hp, h⟩
    · exact .inr ⟨(t, d), List.mem_cons_self, h⟩
    · exact .inr ⟨p, List.mem_cons_of_mem _ hp, h⟩

theorem diffs_append :
    Diffs cell delta a h (m₁ ++ m₂) ↔
      Dates cell delta a h m₁ ∧ Diffs cell delta (lastDate a m₁) (lastNode cell h m₁) m₂ := by
  induction m₁ generalizing a h with
  | nil => exact ⟨fun hm => ⟨trivial, hm⟩, fun hm => hm.2⟩
  | cons p m ih =>
    obtain ⟨t, d⟩ := p
    constructor
    · rintro ⟨hn, hm⟩
      exact ⟨⟨hn, (ih.mp hm).1⟩, (ih.mp hm).2⟩
    · rintro ⟨⟨hn, hp⟩, hm⟩
      exact ⟨hn, ih.mpr ⟨hp, hm⟩⟩

theorem Dates.congr (hm : Dates cell delta a h m) (hnd : (h :: (m.map Prod.fst).map cell).Nodup)
    (hc : ∀ n ∈ h :: (m.map Prod.fst).map cell, n ≠ lastNode cell h m → delta' n = delta n) :
    Dates cell delta' a h m := by
  induction m generalizing a h with
  | nil => trivial
  | cons p m ih =>
    obtain ⟨t, d⟩ := p
    obtain ⟨hh, hnd'⟩ := List.nodup_cons.mp hnd
    have hne : h ≠ lastNode cell (cell t) m := fun he => hh (he ▸ lastCell_mem cell (cell t) _)
    refine ⟨?_, ih hm.2 hnd' fun n hn => hc n (List.mem_cons_of_mem _ hn)⟩
    rw [hc h List.mem_cons_self hne]
    exact hm.1

theorem Diffs.congr (hm : Diffs cell delta a h m)
    (hc : ∀ n ∈ h :: (m.map Prod.fst).map cell, delta' n = delta n) : Diffs cell delta' a h m := by
  induction m generalizing a h with
  | nil => exact (hc h List.mem_cons_self).trans hm
  | cons p m ih =>
    obtain ⟨t, d⟩ := p
    refine ⟨?_, ih hm.2 fun n hn => hc n (List.mem_cons_of_mem _ hn)⟩
    rw [hc h List.mem_cons_self]
    exact hm.1

/-- The dates of a list kept as differences never decrease. -/
theorem Diffs.le (hm : Diffs cell delta a h m) : ∀ p ∈ m, a ≤ p.2 := by
  induction m generalizing a h with
  | nil => intro p hp; cases hp
  | cons q m ih =>
    obtain ⟨t, d⟩ := q
    intro p hp
    have had : a ≤ d := by have := hm.1; omega
    rcases List.mem_cons.mp hp with rfl | hp
    · exact had
    · exact Nat.le_trans had (ih hm.2 p hp)

/-- Put `x` in with the date `d`, behind the last date and before the next one. -/
theorem Diffs.insert (hm : Diffs cell delta a h (m₁ ++ m₂))
    (hnd : (h :: ((m₁ ++ m₂).map Prod.fst).map cell).Nodup)
    (hx : cell x ∉ h :: ((m₁ ++ m₂).map Prod.fst).map cell)
    (hlast : lastDate a m₁ + delta' (lastNode cell h m₁) = d)
    (hend : m₂ = [] → delta' (cell x) = 0)
    (hmid : ∀ p ∈ m₂.head?, d + delta' (cell x) = p.2)
    (hc : ∀ n, n ≠ lastNode cell h m₁ → n ≠ cell x → delta' n = delta n) :
    Diffs cell delta' a h (m₁ ++ (x, d) :: m₂) := by
  obtain ⟨hp, hm₂⟩ := diffs_append.mp hm
  rw [List.map_append] at hnd hx
  obtain ⟨hnd₁, hdis⟩ := nodup_pieces hnd
  rw [List.map_append, ← List.cons_append] at hx
  have hx₁ : ∀ n ∈ h :: (m₁.map Prod.fst).map cell, n ≠ cell x := by
    rintro n hn rfl
    exact hx (List.mem_append_left _ hn)
  refine diffs_append.mpr ⟨hp.congr hnd₁ fun n hn hne => hc n hne (hx₁ n hn), hlast, ?_⟩
  cases m₂ with
  | nil => exact hend rfl
  | cons p m₂ =>
    obtain ⟨t, e⟩ := p
    refine ⟨hmid (t, e) rfl, hm₂.2.congr fun n hn => hc n ?_ ?_⟩
    · rintro rfl
      exact hdis _ (lastCell_mem cell h _) hn
    · rintro rfl
      exact hx (List.mem_append_right _ hn)

/-- Take `x` out: the node before gets its difference too, or none where `x` was the last. -/
theorem Diffs.remove (hm : Diffs cell delta a h (m₁ ++ (x, d) :: m₂))
    (hnd : (h :: ((m₁ ++ (x, d) :: m₂).map Prod.fst).map cell).Nodup)
    (hend : m₂ = [] → delta' (lastNode cell h m₁) = 0)
    (hmid : m₂ ≠ [] → delta' (lastNode cell h m₁) = delta (lastNode cell h m₁) + delta (cell x))
    (hc : ∀ n, n ≠ lastNode cell h m₁ → n ≠ cell x → delta' n = delta n) :
    Diffs cell delta' a h (m₁ ++ m₂) := by
  obtain ⟨hp, hxd, hm₂⟩ := diffs_append.mp hm
  rw [List.map_append] at hnd
  obtain ⟨hnd₁, hdis⟩ := nodup_pieces hnd
  have hxl : ∀ n ∈ h :: (m₁.map Prod.fst).map cell, n ≠ cell x := by
    rintro n hn rfl
    exact hdis _ hn List.mem_cons_self
  refine diffs_append.mpr ⟨hp.congr hnd₁ fun n hn hne => hc n hne (hxl n hn), ?_⟩
  cases m₂ with
  | nil => exact hend rfl
  | cons p m₂ =>
    obtain ⟨t, e⟩ := p
    have hnd₂ : ((x :: t :: m₂.map Prod.fst).map cell).Nodup := by
      rw [List.map_append, ← List.cons_append, List.nodup_append] at hnd
      exact hnd.2.1
    refine ⟨?_, hm₂.2.congr fun n hn => hc n ?_ ?_⟩
    · have hte := hm₂.1
      rw [hmid (by simp)]
      omega
    · rintro rfl
      exact hdis _ (lastCell_mem cell h _) (List.mem_cons_of_mem _ hn)
    · rintro rfl
      exact (List.nodup_cons.mp hnd₂).1 hn

end Dates

end Linked
