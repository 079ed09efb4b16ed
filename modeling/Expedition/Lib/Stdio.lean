import Mathlib.Data.BitVec
import Mathlib.Tactic.Common

/-!
# Reading hexadecimal words from a C stream

`fscanf(fp, "%X", &d)` and `feof(fp)` as the C standard has them, on a stream of characters, and
the grammar of a file of hexadecimal words.

* `scanHex` — white space is skipped, then the longest sequence that is, or begins, an optional
  sign, an optional `0x` and hexadecimal digits is taken; the character after it stays in the
  stream.  The end-of-file indicator is set exactly when the scan looks past the last character.
* `HexText text ws` — `text` is the words `ws`, of one to eight digits, separated by white space.
* `HexText.scan` — on such a text a scan takes the next word, or reports the end of the file.
* `scanUpTo` — scan after scan until the end of the file is seen; `HexText.scanUpTo` is what that finds
  in a file of words, and `scannable` tells of any file whether the end is ever seen.
-/

namespace Stdio

/-- An open text stream: what is still to be read, and the end-of-file indicator. -/
structure Stream where
  rest : List Char
  eof : Bool
  deriving DecidableEq, Repr

def Stream.ofText (text : List Char) : Stream := ⟨text, false⟩

def feof (fp : Stream) : Bool := fp.eof

def isspace (c : Char) : Bool :=
  c = ' ' || c = '\t' || c = '\n' || c = '\r' || c = Char.ofNat 11 || c = Char.ofNat 12

/-- The value of a hexadecimal digit. -/
def hexVal (c : Char) : Option Nat :=
  if '0' ≤ c ∧ c ≤ '9' then some (c.toNat - 48)
  else if 'a' ≤ c ∧ c ≤ 'f' then some (c.toNat - 87)
  else if 'A' ≤ c ∧ c ≤ 'F' then some (c.toNat - 55)
  else none

def isxdigit (c : Char) : Bool := (hexVal c).isSome

/-- The number a sequence of digits denotes. -/
def hexNat (digits : List Char) : Nat :=
  digits.foldl (fun n c => n * 16 + (hexVal c).getD 0) 0

/-- `strtoul` in base 16 with 32-bit `unsigned long`: what does not fit becomes the largest value,
and a minus sign negates what does. -/
def strtoul (negative : Bool) (digits : List Char) : BitVec 32 :=
  if 2 ^ 32 ≤ hexNat digits then BitVec.allOnes 32
  else if negative then -BitVec.ofNat 32 (hexNat digits)
  else BitVec.ofNat 32 (hexNat digits)

/-- What follows the optional `0x`. -/
def afterPrefix : List Char → List Char
  | '0' :: 'x' :: l => l
  | '0' :: 'X' :: l => l
  | l => l

/-- What follows the optional sign. -/
def afterSign : List Char → List Char
  | '-' :: l => l
  | '+' :: l => l
  | l => l

/-- `fscanf(fp, "%X", &d)`: the value stored, if one is, and the stream after. -/
def scanHex (fp : Stream) : Option (BitVec 32) × Stream :=
  match fp.rest.dropWhile isspace with
  | [] => (none, ⟨[], true⟩)
  | c :: cs =>
    let body := afterPrefix (afterSign (c :: cs))
    let rest := body.dropWhile isxdigit
    if body.takeWhile isxdigit = [] then (none, ⟨rest, rest.isEmpty⟩)
    else (some (strtoul (c = '-') (body.takeWhile isxdigit)), ⟨rest, rest.isEmpty⟩)

/-! ## Files of words -/

/-- One to eight hexadecimal digits. -/
structure IsWord (digits : List Char) : Prop where
  ne_nil : digits ≠ []
  length_le : digits.length ≤ 8
  digit : ∀ c ∈ digits, isxdigit c = true

/-- The 32-bit word the digits denote. -/
def hexWord (digits : List Char) : BitVec 32 := BitVec.ofNat 32 (hexNat digits)

/-- `text` consists of the words `ws` separated by white space. -/
inductive HexText : List Char → List (BitVec 32) → Prop where
  | nil : HexText [] []
  | blank {c : Char} {t : List Char} {ws : List (BitVec 32)} (hc : isspace c = true)
      (ht : HexText t ws) : HexText (c :: t) ws
  | last {d : List Char} (hd : IsWord d) : HexText d [hexWord d]
  | word {d : List Char} {c : Char} {t : List Char} {ws : List (BitVec 32)} (hd : IsWord d)
      (hc : isspace c = true) (ht : HexText t ws) : HexText (d ++ c :: t) (hexWord d :: ws)

theorem hexVal_lt {c : Char} {n : Nat} (h : hexVal c = some n) : n < 16 := by
  unfold hexVal at h
  simp only [Char.le_def, UInt32.le_iff_toNat_le] at h
  split at h
  · rename_i hc
    cases h
    have h9 : c.toNat ≤ 57 := hc.2
    omega
  · split at h
    · rename_i hc
      cases h
      have h9 : c.toNat ≤ 102 := hc.2
      omega
    · split at h
      · rename_i hc
        cases h
        have h9 : c.toNat ≤ 70 := hc.2
        omega
      · cases h

theorem hexNat_lt (digits : List Char) : hexNat digits < 16 ^ digits.length := by
  suffices h : ∀ (l : List Char) (n : Nat),
      l.foldl (fun n c => n * 16 + (hexVal c).getD 0) n < (n + 1) * 16 ^ l.length by
    simpa [hexNat] using h digits 0
  intro l
  induction l with
  | nil => intro n; simp
  | cons c l ih =>
    intro n
    have hc : (hexVal c).getD 0 < 16 := by
      cases h : hexVal c with
      | none => decide
      | some v => exact hexVal_lt h
    calc (c :: l).foldl (fun n c => n * 16 + (hexVal c).getD 0) n
        < (n * 16 + (hexVal c).getD 0 + 1) * 16 ^ l.length := ih _
      _ ≤ ((n + 1) * 16) * 16 ^ l.length := Nat.mul_le_mul_right _ (by omega)
      _ = (n + 1) * 16 ^ (c :: l).length := by rw [List.length_cons, Nat.pow_succ', Nat.mul_assoc]

theorem isxdigit_of_isspace {c : Char} (h : isspace c = true) : isxdigit c = false := by
  simp only [isspace, Bool.or_eq_true, decide_eq_true_eq] at h
  rcases h with ((((rfl | rfl) | rfl) | rfl) | rfl) | rfl <;> decide

theorem isspace_of_isxdigit {c : Char} (h : isxdigit c = true) : isspace c = false := by
  by_contra hc
  rw [isxdigit_of_isspace (by simpa using hc)] at h
  cases h

/-- The rest of a text after a word: nothing, or white space and more. -/
def Ends (r : List Char) : Prop := ∀ c ∈ r.head?, isspace c = true

theorem takeWhile_word {d r : List Char} (hd : ∀ c ∈ d, isxdigit c = true) (hr : Ends r) :
    (d ++ r).takeWhile isxdigit = d := by
  rw [List.takeWhile_append_of_pos hd]
  cases r with
  | nil => simp
  | cons c r => simp [isxdigit_of_isspace (hr c rfl)]

theorem dropWhile_word {d r : List Char} (hd : ∀ c ∈ d, isxdigit c = true) (hr : Ends r) :
    (d ++ r).dropWhile isxdigit = r := by
  rw [List.dropWhile_append_of_pos hd]
  cases r with
  | nil => simp
  | cons c r => simp [isxdigit_of_isspace (hr c rfl)]

/-- No digit is a sign, so a word has none. -/
theorem afterSign_word {c : Char} {l : List Char} (hc : isxdigit c = true) :
    afterSign (c :: l) = c :: l := by
  unfold afterSign
  split
  · rename_i h; cases h; exact absurd hc (by decide)
  · rename_i h; cases h; exact absurd hc (by decide)
  · rfl

/-- Neither `x` is a digit or white space, so a word has no `0x`. -/
theorem afterPrefix_word {d r : List Char} (hd : ∀ c ∈ d, isxdigit c = true) (hr : Ends r) :
    afterPrefix (d ++ r) = d ++ r := by
  have hx : ∀ y, y = 'x' ∨ y = 'X' → ∀ l, d ++ r ≠ '0' :: y :: l := by
    intro y hy l h
    have hmem : isxdigit y = true ∨ isspace y = true := by
      match d, hd, h with
      | [], _, h =>
        have := hr '0' (by rw [List.nil_append] at h; rw [h]; rfl)
        exact absurd this (by decide)
      | [_], _, h =>
        simp only [List.cons_append, List.nil_append, List.cons.injEq] at h
        exact .inr (hr y (by rw [h.2]; rfl))
      | _ :: c :: _, hd, h =>
        simp only [List.cons_append, List.cons.injEq] at h
        exact .inl (h.2.1 ▸ hd c (by simp))
    rcases hy with rfl | rfl <;> revert hmem <;> decide
  unfold afterPrefix
  split
  · rename_i l h; exact absurd h (hx _ (.inl rfl) l)
  · rename_i l h; exact absurd h (hx _ (.inr rfl) l)
  · rfl

/-- A scan at a word takes it, and looks past the end exactly if the word is the last. -/
theorem scanHex_word {d r : List Char} (hd : IsWord d) (hr : Ends r) :
    scanHex (Stream.ofText (d ++ r)) = (some (hexWord d), ⟨r, r.isEmpty⟩) := by
  obtain ⟨c, l, rfl⟩ := List.exists_cons_of_ne_nil hd.ne_nil
  have hc : isxdigit c = true := hd.digit c List.mem_cons_self
  have hskip : (Stream.ofText (c :: l ++ r)).rest.dropWhile isspace = c :: (l ++ r) := by
    simp [Stream.ofText, isspace_of_isxdigit hc]
  have hminus : c ≠ '-' := by
    rintro rfl
    exact absurd hc (by decide)
  have hsmall : ¬ 2 ^ 32 ≤ hexNat (c :: l) := by
    have h₁ := hexNat_lt (c :: l)
    have h₂ : 16 ^ (c :: l).length ≤ 16 ^ 8 := Nat.pow_le_pow_right (by decide) hd.length_le
    omega
  unfold scanHex
  simp only [hskip, afterSign_word hc]
  rw [← List.cons_append, afterPrefix_word hd.digit hr, takeWhile_word hd.digit hr,
    dropWhile_word hd.digit hr, if_neg (List.cons_ne_nil _ _)]
  simp only [strtoul, if_neg hsmall, hminus, decide_false, Bool.false_eq_true, if_false]
  rfl

/-- White space before what is scanned makes no difference. -/
theorem scanHex_blank {c : Char} {t : List Char} (hc : isspace c = true) :
    scanHex (Stream.ofText (c :: t)) = scanHex (Stream.ofText t) := by
  unfold scanHex
  simp [Stream.ofText, hc]

/-- An empty file has no words. -/
theorem HexText.eq_nil {ws : List (BitVec 32)} (h : HexText [] ws) : ws = [] := by
  generalize ht : ([] : List Char) = t at h
  cases h with
  | nil => rfl
  | blank => cases ht
  | last hd => exact absurd ht.symm hd.ne_nil
  | word => simp at ht

/-- The text ends in white space. -/
def endsBlank (t : List Char) : Bool := t.getLast?.any isspace

theorem endsBlank_append {p r : List Char} (hr : r ≠ []) : endsBlank (p ++ r) = endsBlank r := by
  unfold endsBlank
  rw [List.getLast?_append_of_ne_nil _ hr]

theorem endsBlank_word {d : List Char} (hd : IsWord d) : endsBlank d = false := by
  unfold endsBlank
  rw [List.getLast?_eq_some_getLast hd.ne_nil]
  exact isspace_of_isxdigit (hd.digit _ (List.getLast_mem _))

theorem HexText.endsBlank_of_nil {t : List Char} (h : HexText t []) (ht : t ≠ []) :
    endsBlank t = true := by
  generalize hws : ([] : List (BitVec 32)) = ws at h
  induction h with
  | nil => exact absurd rfl ht
  | @blank c t ws hc h ih =>
    by_cases hn : t = []
    · rw [hn]; exact hc
    · rw [← List.singleton_append, endsBlank_append hn]; exact ih hn hws
  | last => cases hws
  | word => cases hws

/-- What a scan of a file of the given words does: it stores the first word and leaves a file of the
others, whose end it has seen exactly if nothing at all is left; or there is no word and it sees
the end. -/
def ScanOf (t : List Char) : List (BitVec 32) → Prop
  | [] => scanHex (Stream.ofText t) = (none, ⟨[], true⟩)
  | w :: ws => ∃ r, scanHex (Stream.ofText t) = (some w, ⟨r, r.isEmpty⟩) ∧ HexText r ws ∧
      r.length < t.length ∧ endsBlank r = endsBlank t

theorem ScanOf.blank {c : Char} {t : List Char} {ws : List (BitVec 32)} (hc : isspace c = true)
    (h : HexText t ws) (hs : ScanOf t ws) : ScanOf (c :: t) ws := by
  cases ws with
  | nil =>
    unfold ScanOf
    rw [scanHex_blank hc]
    exact hs
  | cons w ws =>
    obtain ⟨r, hr, hws, hlen, hend⟩ := hs
    refine ⟨r, by rw [scanHex_blank hc, hr], hws, Nat.lt_succ_of_lt hlen, ?_⟩
    have ht : t ≠ [] := by
      rintro rfl
      exact absurd hlen (Nat.not_lt_zero _)
    rw [hend, ← List.singleton_append (l := t), endsBlank_append ht]

/-- **One scan of a file of words.** -/
theorem HexText.scan {t : List Char} {ws : List (BitVec 32)} (h : HexText t ws) : ScanOf t ws := by
  induction h with
  | nil => rfl
  | blank hc h ih => exact ih.blank hc h
  | last hd =>
    have hscan := scanHex_word (r := []) hd (by simp [Ends])
    rw [List.append_nil] at hscan
    exact ⟨[], hscan, .nil, List.length_pos_of_ne_nil hd.ne_nil, (endsBlank_word hd).symm⟩
  | @word d c t ws hd hc ht =>
    refine ⟨c :: t, scanHex_word hd (by simpa [Ends] using hc), .blank hc ht, ?_, ?_⟩
    · have := List.length_pos_of_ne_nil hd.ne_nil
      rw [List.length_append]
      omega
    · exact (endsBlank_append (List.cons_ne_nil _ _)).symm

/-! ## Scanning on -/

/-- Scan until the end of the file is seen, `n` times at most: the results and the stream after. -/
def scanUpTo : Nat → Stream → List (Option (BitVec 32)) × Stream
  | 0, fp => ([], fp)
  | n + 1, fp =>
    if feof fp then ([], fp)
    else ((scanHex fp).1 :: (scanUpTo n (scanHex fp).2).1, (scanUpTo n (scanHex fp).2).2)

theorem scanUpTo_eof (n : Nat) {fp : Stream} (h : feof fp = true) : scanUpTo n fp = ([], fp) := by
  cases n with
  | zero => rfl
  | succ n => rw [scanUpTo, if_pos h]

theorem scanUpTo_succ (n : Nat) {fp : Stream} (h : feof fp = false) :
    scanUpTo (n + 1) fp =
      ((scanHex fp).1 :: (scanUpTo n (scanHex fp).2).1, (scanUpTo n (scanHex fp).2).2) := by
  rw [scanUpTo, if_neg (by simp [h])]

theorem scanUpTo_add (m n : Nat) (fp : Stream) :
    scanUpTo (m + n) fp =
      ((scanUpTo m fp).1 ++ (scanUpTo n (scanUpTo m fp).2).1, (scanUpTo n (scanUpTo m fp).2).2) := by
  induction m generalizing fp with
  | zero => rw [Nat.zero_add]; rfl
  | succ m ih =>
    cases h : feof fp with
    | true => simp [scanUpTo_eof _ h]
    | false =>
      rw [Nat.add_right_comm, scanUpTo_succ _ h, scanUpTo_succ _ h, ih]
      rfl

/-- The scans go on until the end is seen. -/
theorem length_scanUpTo (n : Nat) (fp : Stream) :
    (scanUpTo n fp).1.length = n ∨
      (scanUpTo n fp).1.length < n ∧ feof (scanUpTo n fp).2 = true := by
  induction n generalizing fp with
  | zero => exact .inl rfl
  | succ n ih =>
    cases h : feof fp with
    | true =>
      rw [scanUpTo_eof _ h]
      exact .inr ⟨Nat.succ_pos n, h⟩
    | false =>
      rw [scanUpTo_succ _ h, List.length_cons]
      rcases ih (scanHex fp).2 with hn | ⟨hn, heof⟩
      · exact .inl (congrArg Nat.succ hn)
      · exact .inr ⟨Nat.succ_lt_succ hn, heof⟩

theorem scanHex_eof (fp : Stream) : (scanHex fp).2.eof = (scanHex fp).2.rest.isEmpty := by
  unfold scanHex
  split
  · rfl
  · dsimp only
    split <;> rfl

/-- **A file of words, scanned to its end**: every word, and one scan that finds none if the file ends
in white space. -/
theorem HexText.scanUpTo {t : List Char} {ws : List (BitVec 32)} (h : HexText t ws) (ht : t ≠ [])
    {n : Nat} (hn : t.length < n) :
    scanUpTo n (Stream.ofText t) =
      (ws.map some ++ if endsBlank t then [none] else [], ⟨[], true⟩) := by
  induction n generalizing t ws with
  | zero => omega
  | succ n ih =>
    rw [scanUpTo_succ n (by rfl)]
    have hscan := h.scan
    cases ws with
    | nil =>
      rw [ScanOf] at hscan
      rw [hscan, scanUpTo_eof n (by rfl), h.endsBlank_of_nil ht]
      rfl
    | cons w ws =>
      obtain ⟨r, hr, hws, hlen, hend⟩ := hscan
      rw [hr]
      by_cases hnil : r = []
      · subst hnil
        have hws' : ws = [] := hws.eq_nil
        subst hws'
        rw [scanUpTo_eof n (by rfl), ← hend]
        rfl
      · have hempty : r.isEmpty = false := by simpa using hnil
        rw [hempty, ← hend]
        have hrest := ih hws hnil (by omega)
        rw [Stream.ofText] at hrest
        simp only [hrest, List.map_cons, List.cons_append]

/-! ## Files a scan can get past -/

/-- Where a character stands: at the start of an item, after a `0` that starts one, or further in. -/
inductive Within where
  | fresh
  | zero
  | inside
  deriving DecidableEq, Repr

def isSign (c : Char) : Bool := c = '-' || c = '+'

/-- Where the next character stands, or nothing if a scan does not get past this one: an `x` is taken
only after the `0` that starts an item. -/
def Within.next (p : Within) (c : Char) : Option Within :=
  if isspace c || isSign c then some .fresh
  else if isxdigit c then some (if p = .fresh ∧ c = '0' then .zero else .inside)
  else if p = .zero ∧ (c = 'x' ∨ c = 'X') then some .inside
  else none

def Within.passes : Within → List Char → Bool
  | _, [] => true
  | p, c :: t =>
    match p.next c with
    | none => false
    | some p => p.passes t

/-- Every character is white space, a sign, a hexadecimal digit, or the `x` of a leading `0x`. -/
def scannable (t : List Char) : Bool := Within.fresh.passes t

theorem Within.passes_cons {p q : Within} {c : Char} (h : p.next c = some q) (t : List Char) :
    p.passes (c :: t) = q.passes t := by
  rw [Within.passes, h]

theorem scannable_blank {c : Char} (h : isspace c = true) (t : List Char) :
    scannable (c :: t) = scannable t :=
  Within.passes_cons (by simp [Within.next, h]) t

theorem scannable_dropWhile (t : List Char) : scannable (t.dropWhile isspace) = scannable t := by
  induction t with
  | nil => rfl
  | cons c t ih =>
    by_cases h : isspace c = true
    · rw [List.dropWhile_cons_of_pos h, ih, scannable_blank h]
    · rw [List.dropWhile_cons_of_neg h]

theorem scannable_afterSign (t : List Char) : scannable (afterSign t) = scannable t := by
  unfold afterSign
  split
  · exact (Within.passes_cons (by decide) _).symm
  · exact (Within.passes_cons (by decide) _).symm
  · rfl

theorem isSign_of_isxdigit {c : Char} (h : isxdigit c = true) : isSign c = false := by
  by_contra hc
  simp only [isSign, Bool.or_eq_true, decide_eq_true_eq, Bool.not_eq_false] at hc
  rcases hc with rfl | rfl <;> exact absurd h (by decide)

theorem next_digit (p : Within) {c : Char} (h : isxdigit c = true) :
    p.next c = some (if p = .fresh ∧ c = '0' then .zero else .inside) := by
  rw [Within.next, isspace_of_isxdigit h, isSign_of_isxdigit h, if_neg (by decide), if_pos h]

/-- Digits inside an item lead nowhere else. -/
theorem passes_inside_dropWhile (t : List Char) :
    Within.inside.passes (t.dropWhile isxdigit) = Within.inside.passes t := by
  induction t with
  | nil => rfl
  | cons c t ih =>
    by_cases h : isxdigit c = true
    · rw [List.dropWhile_cons_of_pos h, ih, Within.passes_cons (next_digit .inside h)]
      rfl
    · rw [List.dropWhile_cons_of_neg h]

/-- After an item it makes no difference that one was there. -/
theorem passes_inside_eq {r : List Char} (h : ∀ c ∈ r.head?, isxdigit c = false) :
    Within.inside.passes r = scannable r := by
  cases r with
  | nil => rfl
  | cons c r =>
    have hc : isxdigit c = false := h c rfl
    have hnext : Within.inside.next c = Within.fresh.next c := by simp [Within.next, hc]
    rw [scannable, Within.passes, Within.passes, hnext]

/-- After the `0` that starts an item only an `x` makes a difference. -/
theorem passes_zero_eq {l : List Char} (h : ∀ c ∈ l.head?, c ≠ 'x' ∧ c ≠ 'X') :
    Within.zero.passes l = Within.inside.passes l := by
  cases l with
  | nil => rfl
  | cons c l =>
    obtain ⟨hx, hX⟩ := h c rfl
    have hnext : Within.zero.next c = Within.inside.next c := by simp [Within.next, hx, hX]
    rw [Within.passes, Within.passes, hnext]

theorem head_dropWhile_isxdigit (t : List Char) :
    ∀ c ∈ (t.dropWhile isxdigit).head?, isxdigit c = false := by
  intro c hc
  have := List.head?_dropWhile_not isxdigit t
  rw [hc] at this
  simpa using this

/-- Past the digits that follow a sign or a `0x`. -/
theorem scannable_afterPrefix (u : List Char) :
    scannable ((afterPrefix u).dropWhile isxdigit) = scannable u := by
  rw [← passes_inside_eq (head_dropWhile_isxdigit _), passes_inside_dropWhile]
  unfold afterPrefix
  split
  · rw [scannable, Within.passes_cons (q := .zero) (by decide),
      Within.passes_cons (q := .inside) (by decide)]
  · rw [scannable, Within.passes_cons (q := .zero) (by decide),
      Within.passes_cons (q := .inside) (by decide)]
  · rename_i hx hX
    cases u with
    | nil => rfl
    | cons c l =>
      by_cases hc : isxdigit c = true
      · rw [scannable, Within.passes_cons (next_digit .inside hc),
          Within.passes_cons (next_digit .fresh hc)]
        by_cases h0 : c = '0'
        · subst h0
          refine (passes_zero_eq fun y hy => ?_).symm
          obtain ⟨l', rfl⟩ := List.head?_eq_some_iff.mp hy
          refine ⟨?_, ?_⟩
          · rintro rfl
            exact hx l' rfl
          · rintro rfl
            exact hX l' rfl
        · simp [h0]
      · exact passes_inside_eq (by simpa using hc)

/-- What a scan leaves. -/
theorem scanHex_rest (fp : Stream) :
    (scanHex fp).2.rest =
      (afterPrefix (afterSign (fp.rest.dropWhile isspace))).dropWhile isxdigit := by
  unfold scanHex
  split
  · rename_i h
    rw [h]
    rfl
  · rename_i h
    rw [h]
    dsimp only
    split <;> rfl

/-- **A scan gets past what it takes and nothing else**: the rest of the file is scannable exactly if
the file was. -/
theorem scanHex_scannable (fp : Stream) : scannable (scanHex fp).2.rest = scannable fp.rest := by
  rw [scanHex_rest, scannable_afterPrefix, scannable_afterSign, scannable_dropWhile]

theorem length_afterPrefix_le (t : List Char) : (afterPrefix t).length ≤ t.length := by
  unfold afterPrefix
  split
  · simp only [List.length_cons]
    omega
  · simp only [List.length_cons]
    omega
  · exact Nat.le_refl _

theorem length_dropWhile_le (q : Char → Bool) (t : List Char) :
    (t.dropWhile q).length ≤ t.length :=
  (List.dropWhile_sublist q).length_le

/-- A digit or a sign is taken. -/
theorem length_item_lt {c : Char} (cs : List Char) (h : isSign c = true ∨ isxdigit c = true) :
    ((afterPrefix (afterSign (c :: cs))).dropWhile isxdigit).length < (c :: cs).length := by
  rcases h with h | h
  · have hsign : afterSign (c :: cs) = cs := by
      simp only [isSign, Bool.or_eq_true, decide_eq_true_eq] at h
      rcases h with rfl | rfl <;> rfl
    have hdrop := length_dropWhile_le isxdigit (afterPrefix cs)
    have hpre := length_afterPrefix_le cs
    rw [hsign, List.length_cons]
    omega
  · rw [afterSign_word h]
    unfold afterPrefix
    split
    · rename_i l heq
      have hdrop := length_dropWhile_le isxdigit l
      rw [heq]
      simp only [List.length_cons]
      omega
    · rename_i l heq
      have hdrop := length_dropWhile_le isxdigit l
      rw [heq]
      simp only [List.length_cons]
      omega
    · rw [List.dropWhile_cons_of_pos h]
      exact Nat.lt_succ_of_le (length_dropWhile_le isxdigit cs)

/-- In a scannable file every scan takes something or sees the end. -/
theorem length_scanHex_lt {fp : Stream} (h : scannable fp.rest = true) :
    (scanHex fp).2.rest.length < fp.rest.length ∨ (scanHex fp).2.eof = true := by
  rw [← scannable_dropWhile] at h
  rw [scanHex_eof, scanHex_rest]
  have hskip := length_dropWhile_le isspace fp.rest
  have hhead := List.head?_dropWhile_not isspace fp.rest
  cases hc : fp.rest.dropWhile isspace with
  | nil => exact .inr rfl
  | cons c cs =>
    rw [hc] at h hskip hhead
    refine .inl (Nat.lt_of_lt_of_le (length_item_lt cs ?_) hskip)
    have hblank : isspace c = false := by simpa using hhead
    by_contra hne
    obtain ⟨hsign, hdigit⟩ := not_or.mp hne
    simp [scannable, Within.passes, Within.next, hblank, hsign, hdigit] at h

/-- **A scannable file is scanned to its end**, in at most one scan more than it has characters. -/
theorem scanUpTo_of_scannable {fp : Stream} (h : scannable fp.rest = true) {n : Nat}
    (hn : fp.rest.length < n) :
    feof (scanUpTo n fp).2 = true ∧ (scanUpTo n fp).1.length ≤ fp.rest.length + 1 := by
  induction n generalizing fp with
  | zero => omega
  | succ n ih =>
    cases heof : feof fp with
    | true =>
      rw [scanUpTo_eof _ heof]
      exact ⟨heof, Nat.zero_le _⟩
    | false =>
      rw [scanUpTo_succ n heof, List.length_cons]
      have hrest : scannable (scanHex fp).2.rest = true := (scanHex_scannable fp).trans h
      rcases length_scanHex_lt h with hlt | hend
      · obtain ⟨hfeof, hlen⟩ := ih hrest (by omega)
        exact ⟨hfeof, by omega⟩
      · rw [scanUpTo_eof n hend]
        exact ⟨hend, Nat.succ_le_succ (Nat.zero_le _)⟩

/-- **The end of any other file is never seen.** -/
theorem scanUpTo_of_not_scannable {fp : Stream} (h : scannable fp.rest = false)
    (heof : feof fp = false) (n : Nat) : feof (scanUpTo n fp).2 = false := by
  induction n generalizing fp with
  | zero => exact heof
  | succ n ih =>
    rw [scanUpTo_succ n heof]
    have hrest : scannable (scanHex fp).2.rest = false := (scanHex_scannable fp).trans h
    refine ih hrest ?_
    rw [feof, scanHex_eof]
    cases hr : (scanHex fp).2.rest with
    | nil =>
      rw [hr] at hrest
      cases hrest
    | cons => rfl

end Stdio
