import Expedition.Host.Mailbox
import Expedition.Host.Threads

/-!
# Terminal lines and commands

`term_readbuffer` reads the terminal into `term_rxbuffer` up to a carriage return or up to the size of
the buffer; `mbed_vscanf` and `term_scanf` both read that way, and the command loop of `main` scans the
first word of every line.

* `readFrom_line`, `readFrom_some` — what one call takes from the terminal.
* `readLines_iff` — successive calls split the input by its lines exactly if no line fills the buffer.
* `commands_iff` — the command loop does what its commands say exactly if every line before the
  `quit` is a `debug`.
-/

namespace Expedition

open Function

/-- The carriage return. -/
def CR : Byte := 13

/-- The terminal: what the polls of `pc.readable()` to come find, no character or the next one that
`pc.getc()` takes; and `term_rxbuffer`, with the memory of the target. -/
structure Terminal where
  polls : List (Option Byte)
  rx : Nat → Byte
  mem : Word → Word

/-- The characters still to come. -/
def typed (polls : List (Option Byte)) : List Byte := polls.filterMap id

/-! ## `basic_io.cpp` -/

/-- The loop of `term_readbuffer` at index `i`: the buffer and the polls after it, or nothing if it is
still waiting when the polls end. -/
def readFrom (size : Nat) : List (Option Byte) → Nat → (Nat → Byte) →
    Option ((Nat → Byte) × List (Option Byte))
  | [], i, buffer => if i < size - 1 then none else some (update buffer i 0, [])
  | none :: polls, i, buffer =>
    if i < size - 1 then readFrom size polls i buffer else some (update buffer i 0, none :: polls)
  | some temp :: polls, i, buffer =>
    if i < size - 1 then
      if temp = CR then some (update buffer i 0, polls)
      else readFrom size polls (i + 1) (update buffer i temp)
    else some (update buffer i 0, some temp :: polls)

def term_readbuffer (size : Nat) (t : Terminal) : Option Terminal :=
  (readFrom size t.polls 0 t.rx).map fun r => { t with rx := r.1, polls := r.2 }

/-- The string in `term_rxbuffer`. -/
def Terminal.line (t : Terminal) : List Byte := ((List.range BUF_SIZE).map t.rx).takeWhile (· ≠ 0)

/-- `mbed_vscanf`, with what `vsscanf` makes of the string as a parameter. -/
def mbed_vscanf {α : Type} (vsscanf : List Byte → α) (t : Terminal) : Option (α × Terminal) := do
  let t ← term_readbuffer BUF_SIZE t
  pure (vsscanf t.line, t)

def term_scanf (t : Terminal) : Option (Nat × Terminal) := do
  let t ← term_readbuffer BUF_SIZE t
  let (len, s) := (Buffers.before t.mem t.rx).jtag_readbuffer
  pure (len, { t with mem := s.mem })

/-- Who reads the terminal. -/
inductive Reader where
  | mbed_scanf
  | term_scanf
  deriving DecidableEq, Repr

/-- The terminal after a call. -/
def Reader.call (r : Reader) (t : Terminal) : Option Terminal :=
  match r with
  | .mbed_scanf => (mbed_vscanf (fun _ => ()) t).map Prod.snd
  | .term_scanf => (Expedition.term_scanf t).map Prod.snd

/-- Successive calls: what is in the buffer after each of them. -/
def readLines : List Reader → Terminal → Option (List (List Byte) × Terminal)
  | [], t => some ([], t)
  | r :: readers, t => do
    let t ← r.call t
    let (lines, t') ← readLines readers t
    pure (t.line :: lines, t')

/-! ## One call -/

/-- A string stored at index `i`, with its terminator. -/
def placeAt (buffer : Nat → Byte) : Nat → List Byte → Nat → Byte
  | i, [] => update buffer i 0
  | i, c :: s => placeAt (update buffer i c) (i + 1) s

theorem placeAt_apply (s : List Byte) : ∀ (buffer : Nat → Byte) (i j : Nat),
    placeAt buffer i s j = if i ≤ j ∧ j ≤ i + s.length then (s ++ [0]).getD (j - i) 0 else buffer j := by
  induction s with
  | nil =>
    intro buffer i j
    rw [placeAt, update_apply]
    by_cases h : j = i
    · rw [if_pos h, if_pos (by simp; omega), h, Nat.sub_self]
      rfl
    · rw [if_neg h, if_neg (by simp; omega)]
  | cons c s ih =>
    intro buffer i j
    rw [placeAt, ih, List.length_cons]
    by_cases hij : i = j
    · subst hij
      rw [if_neg (by omega), if_pos (by omega), update_self, Nat.sub_self]
      rfl
    · rw [update_of_ne (Ne.symm hij)]
      by_cases hin : i + 1 ≤ j ∧ j ≤ i + 1 + s.length
      · rw [if_pos hin, if_pos (by omega), show j - i = j - (i + 1) + 1 by omega, List.cons_append,
          List.getD_cons_succ]
      · rw [if_neg hin, if_neg (by omega)]

/-- A line that ends before the buffer is full is taken with its carriage return. -/
theorem readFrom_line {size : Nat} {rest : List Byte} (polls : List (Option Byte)) :
    ∀ (i : Nat) (buffer : Nat → Byte) (s : List Byte), typed polls = s ++ CR :: rest → CR ∉ s →
      i + s.length < size - 1 →
      ∃ polls', readFrom size polls i buffer = some (placeAt buffer i s, polls') ∧
        typed polls' = rest := by
  induction polls with
  | nil =>
    intro i buffer s h
    exact absurd (congrArg List.length h) (by simp [typed])
  | cons poll polls ih =>
    intro i buffer s h hcr hlen
    cases poll with
    | none =>
      rw [readFrom, if_pos (by omega)]
      exact ih i buffer s h hcr hlen
    | some temp =>
      rw [readFrom, if_pos (by omega)]
      cases s with
      | nil =>
        obtain ⟨rfl, hrest⟩ := List.cons.inj h
        exact ⟨polls, if_pos rfl, hrest⟩
      | cons c s =>
        obtain ⟨rfl, hrest⟩ := List.cons.inj h
        have htemp : temp ≠ CR := fun e => hcr (e ▸ List.mem_cons_self)
        rw [List.length_cons] at hlen
        rw [if_neg htemp]
        exact ih (i + 1) _ s hrest (fun hmem => hcr (List.mem_cons_of_mem _ hmem)) (by omega)

/-- Whatever a call takes: a string without a carriage return, and the carriage return after it only
if the buffer is not full. -/
theorem readFrom_some {size : Nat} (polls : List (Option Byte)) :
    ∀ (i : Nat) (buffer buffer' : Nat → Byte) (polls' : List (Option Byte)), i ≤ size - 1 →
      readFrom size polls i buffer = some (buffer', polls') →
      ∃ s, buffer' = placeAt buffer i s ∧ i + s.length ≤ size - 1 ∧
        typed polls = s ++ (if i + s.length < size - 1 then [CR] else []) ++ typed polls' := by
  induction polls with
  | nil =>
    intro i buffer buffer' polls' hi h
    rw [readFrom] at h
    split at h
    · cases h
    · rename_i hfull
      cases h
      exact ⟨[], rfl, hi, by rw [if_neg (by simpa using hfull)]; rfl⟩
  | cons poll polls ih =>
    intro i buffer buffer' polls' hi h
    by_cases hroom : i < size - 1
    · cases poll with
      | none =>
        rw [readFrom, if_pos hroom] at h
        exact ih i buffer buffer' polls' hi h
      | some temp =>
        rw [readFrom, if_pos hroom] at h
        by_cases htemp : temp = CR
        · subst htemp
          rw [if_pos rfl] at h
          cases h
          exact ⟨[], rfl, hi, by rw [if_pos (by simpa using hroom)]; rfl⟩
        · rw [if_neg htemp] at h
          obtain ⟨s, hs, hlen, htyped⟩ := ih (i + 1) _ buffer' polls' (by omega) h
          have hsum : i + (temp :: s).length = i + 1 + s.length := by
            rw [List.length_cons]
            omega
          refine ⟨temp :: s, hs, by omega, ?_⟩
          rw [hsum, List.cons_append, List.cons_append, ← htyped]
          rfl
    · have hfull : readFrom size (poll :: polls) i buffer = some (update buffer i 0, poll :: polls) := by
        cases poll with
        | none => rw [readFrom, if_neg hroom]
        | some temp => rw [readFrom, if_neg hroom]
      rw [hfull] at h
      cases h
      exact ⟨[], rfl, hi, by rw [if_neg (by simpa using hroom)]; rfl⟩

/-! ## Successive calls -/

/-- The target's memory after a call. -/
def Reader.memAfter (r : Reader) (mem : Word → Word) (rx : Nat → Byte) : Word → Word :=
  match r with
  | .mbed_scanf => mem
  | .term_scanf => (Buffers.before mem rx).jtag_readbuffer.2.mem

/-- Both callers read the terminal the same way, and neither stores to the buffer after that. -/
theorem Reader.call_eq (r : Reader) (t : Terminal) :
    r.call t = (readFrom BUF_SIZE t.polls 0 t.rx).map fun p => ⟨p.2, p.1, r.memAfter t.mem p.1⟩ := by
  cases r with
  | mbed_scanf =>
    rw [Reader.call, mbed_vscanf, term_readbuffer]
    cases readFrom BUF_SIZE t.polls 0 t.rx <;> rfl
  | term_scanf =>
    rw [Reader.call, Expedition.term_scanf, term_readbuffer]
    cases readFrom BUF_SIZE t.polls 0 t.rx <;> rfl

/-- The string in the buffer is the one that was placed there. -/
theorem line_placeAt {s : List Byte} (h0 : 0 ∉ s) (hlen : s.length < BUF_SIZE) (polls : List (Option Byte))
    (rx : Nat → Byte) (mem : Word → Word) : (Terminal.mk polls (placeAt rx 0 s) mem).line = s := by
  have hbyte : ∀ k ≤ s.length, placeAt rx 0 s k = (s ++ [0]).getD k 0 := by
    intro k hk
    rw [placeAt_apply, if_pos (by omega), Nat.sub_zero]
  have hget : ∀ k (hk : k < s.length), placeAt rx 0 s k = s.get ⟨k, hk⟩ := by
    intro k hk
    rw [hbyte k (by omega)]
    exact terminated_byte s 0 hk
  rw [Terminal.line]
  refine (takeWhile_eq_map (f := placeAt rx 0 s) (L := s.length) ?_ (fun k hk => ?_) (fun k hk => ?_)
    fun _ => ?_).trans ?_
  · rw [List.length_map, List.length_range]
    omega
  · rw [List.getElem?_map, List.getElem?_range (by omega)]
    rfl
  · rw [hget k hk]
    intro hz
    exact h0 (hz ▸ List.get_mem s ⟨k, hk⟩)
  · have hend : placeAt rx 0 s s.length = 0 := by
      rw [hbyte _ (Nat.le_refl _)]
      exact terminated_end s 0
    rw [List.getElem?_map, List.getElem?_range (by omega), Option.map_some]
    exact congrArg some hend
  · refine List.ext_getElem (by simp) fun k hk hk' => ?_
    rw [List.getElem_map, List.getElem_range]
    exact hget k hk'

/-- What the terminal sends: lines, each with its carriage return. -/
def sent (lines : List (List Byte)) : List Byte := lines.flatMap (· ++ [CR])

/-- A line of a terminal: neither a carriage return nor a NUL in it. -/
structure IsLine (l : List Byte) : Prop where
  cr : CR ∉ l
  nul : (0 : Byte) ∉ l

/-- One call at the beginning of a line that does not fill the buffer. -/
theorem Reader.call_line (r : Reader) {t : Terminal} {l : List Byte} {lines : List (List Byte)}
    (htyped : typed t.polls = sent (l :: lines)) (hl : IsLine l) (hlen : l.length < BUF_SIZE - 1) :
    ∃ t', r.call t = some t' ∧ t'.line = l ∧ typed t'.polls = sent lines := by
  have hsent : sent (l :: lines) = l ++ CR :: sent lines := by
    simp [sent, List.flatMap_cons]
  obtain ⟨polls', hread, hrest⟩ := readFrom_line t.polls 0 t.rx l (htyped.trans hsent) hl.cr
    (show 0 + l.length < BUF_SIZE - 1 by omega)
  rw [r.call_eq, hread]
  exact ⟨_, rfl, line_placeAt hl.nul (by omega) _ _ _, hrest⟩

/-- Lines that do not fill the buffer are read one by one. -/
theorem readLines_of_short (lines : List (List Byte)) (hlines : ∀ l ∈ lines, IsLine l)
    (hshort : ∀ l ∈ lines, l.length < BUF_SIZE - 1) (readers : List Reader)
    (hreaders : readers.length = lines.length) (t : Terminal) (htyped : typed t.polls = sent lines) :
    ∃ t', readLines readers t = some (lines, t') ∧ typed t'.polls = [] := by
  induction lines generalizing readers t with
  | nil =>
    obtain rfl : readers = [] := List.eq_nil_of_length_eq_zero hreaders
    exact ⟨t, rfl, htyped⟩
  | cons l lines ih =>
    cases readers with
    | nil => cases hreaders
    | cons r readers =>
      obtain ⟨t₁, hcall, hline, hrest⟩ := r.call_line htyped (hlines l List.mem_cons_self)
        (hshort l List.mem_cons_self)
      obtain ⟨t', hlater, hend⟩ := ih (fun l hl => hlines l (List.mem_cons_of_mem _ hl))
        (fun l hl => hshort l (List.mem_cons_of_mem _ hl)) readers (Nat.succ.inj hreaders) t₁ hrest
      refine ⟨t', ?_, hend⟩
      rw [readLines, hcall]
      show (readLines readers t₁ >>= fun r => some (t₁.line :: r.1, r.2)) = _
      rw [hlater, hline]
      rfl

/-- What a call takes that leaves `l` in the buffer: the carriage return is left where `l` fills it. -/
def taken (l : List Byte) : List Byte := l ++ if l.length < BUF_SIZE - 1 then [CR] else []

/-- Calls that return have taken what they left in the buffer. -/
theorem readLines_some (readers : List Reader) : ∀ (t t' : Terminal) (lines : List (List Byte)),
    (0 : Byte) ∉ typed t.polls → readLines readers t = some (lines, t') →
    typed t.polls = lines.flatMap taken ++ typed t'.polls := by
  induction readers with
  | nil =>
    intro t t' lines _ h
    cases h
    rfl
  | cons r readers ih =>
    intro t t' lines hnul h
    rw [readLines, r.call_eq] at h
    cases hread : readFrom BUF_SIZE t.polls 0 t.rx with
    | none =>
      rw [hread] at h
      cases h
    | some p =>
      obtain ⟨rx, polls⟩ := p
      rw [hread] at h
      obtain ⟨s, hrx, hlen, htyped⟩ := readFrom_some t.polls 0 t.rx rx polls (by omega) hread
      rw [Nat.zero_add] at hlen htyped
      have hs0 : (0 : Byte) ∉ s := by
        intro hmem
        rw [htyped] at hnul
        exact hnul (List.mem_append_left _ (List.mem_append_left _ hmem))
      have hrest0 : (0 : Byte) ∉ typed polls := by
        intro hmem
        rw [htyped] at hnul
        exact hnul (List.mem_append_right _ hmem)
      have hline : (Terminal.mk polls rx (r.memAfter t.mem rx)).line = s := by
        rw [hrx]
        exact line_placeAt hs0 (Nat.lt_of_le_of_lt hlen (by decide)) _ _ _
      have h' : (readLines readers ⟨polls, rx, r.memAfter t.mem rx⟩ >>= fun q =>
          some ((Terminal.mk polls rx (r.memAfter t.mem rx)).line :: q.1, q.2)) = some (lines, t') := h
      cases hlater : readLines readers ⟨polls, rx, r.memAfter t.mem rx⟩ with
      | none =>
        rw [hlater] at h'
        cases h'
      | some q =>
        rw [hlater, hline] at h'
        cases h'
        rw [htyped, ih _ _ q.1 hrest0 hlater, List.flatMap_cons, taken]
        simp only [List.append_assoc]

theorem length_sent (lines : List (List Byte)) :
    (sent lines).length =
      (lines.flatMap taken).length + lines.countP fun l => decide (BUF_SIZE - 1 ≤ l.length) := by
  induction lines with
  | nil => rfl
  | cons l lines ih =>
    have hsent : sent (l :: lines) = (l ++ [CR]) ++ sent lines := List.flatMap_cons ..
    rw [hsent, List.length_append, ih, List.flatMap_cons, List.countP_cons, taken]
    by_cases hshort : l.length < BUF_SIZE - 1
    · have hnot : ¬ decide (BUF_SIZE - 1 ≤ l.length) = true := by
        rw [decide_eq_true_eq]
        omega
      rw [if_pos hshort, if_neg hnot]
      simp only [List.length_append]
      omega
    · have hfull : decide (BUF_SIZE - 1 ≤ l.length) = true := by
        rw [decide_eq_true_eq]
        omega
      rw [if_neg hshort, if_pos hfull]
      simp only [List.length_append, List.append_nil, List.length_singleton]
      omega

theorem not_mem_sent {lines : List (List Byte)} (hlines : ∀ l ∈ lines, IsLine l) :
    (0 : Byte) ∉ sent lines := by
  intro hmem
  obtain ⟨l, hl, hmem⟩ := List.mem_flatMap.mp hmem
  rcases List.mem_append.mp hmem with h | h
  · exact (hlines l hl).nul h
  · exact absurd (List.mem_singleton.mp h) (by decide)

/-- Where the calls leave the lines and nothing else is left to read, no line fills the buffer. -/
theorem short_of_readLines {lines : List (List Byte)} (hlines : ∀ l ∈ lines, IsLine l)
    {readers : List Reader} {t t' : Terminal} (htyped : typed t.polls = sent lines)
    (h : readLines readers t = some (lines, t')) (hend : typed t'.polls = []) :
    ∀ l ∈ lines, l.length < BUF_SIZE - 1 := by
  have hnul : (0 : Byte) ∉ typed t.polls := by
    rw [htyped]
    exact not_mem_sent hlines
  have htaken := readLines_some readers t t' lines hnul h
  rw [hend, List.append_nil, htyped] at htaken
  have hlen := congrArg List.length htaken
  rw [length_sent] at hlen
  have hcount : lines.countP (fun l => decide (BUF_SIZE - 1 ≤ l.length)) = 0 := by omega
  intro l hl
  have hnot := List.countP_eq_zero.mp hcount l hl
  rw [decide_eq_true_eq] at hnot
  omega

/-- **When terminal input is split by lines.**  For every sequence of lines of at most `BUF_SIZE - 1`
characters, whenever the terminal has them ready and whoever calls: the k-th call leaves the k-th
line and the calls take everything, exactly if no line has `BUF_SIZE - 1` characters. -/
theorem readLines_iff (lines : List (List Byte)) (hlines : ∀ l ∈ lines, IsLine l)
    (hsize : ∀ l ∈ lines, l.length ≤ BUF_SIZE - 1) (readers : List Reader)
    (hreaders : readers.length = lines.length) (t : Terminal) (htyped : typed t.polls = sent lines) :
    (∃ t', readLines readers t = some (lines, t') ∧ typed t'.polls = []) ↔
      ∀ l ∈ lines, l.length ≠ BUF_SIZE - 1 := by
  constructor
  · rintro ⟨t', h, hend⟩ l hl
    exact Nat.ne_of_lt (short_of_readLines hlines htyped h hend l hl)
  · intro h
    exact readLines_of_short lines hlines (fun l hl => Nat.lt_of_le_of_ne (hsize l hl) (h l hl)) readers
      hreaders t htyped

theorem isLine_replicate (n : Nat) : IsLine (List.replicate n 97) :=
  ⟨fun h => absurd (List.eq_of_mem_replicate h) (by decide),
    fun h => absurd (List.eq_of_mem_replicate h) (by decide)⟩

/-- A terminal that has these lines ready at once. -/
def terminalWith (lines : List (List Byte)) : Terminal :=
  ⟨(sent lines).map some, fun _ => 0, fun _ => 0⟩

theorem typed_terminalWith (lines : List (List Byte)) : typed (terminalWith lines).polls = sent lines := by
  simp [typed, terminalWith, List.filterMap_map]

/-- A line of two characters and an empty one, for the program and for the chip. -/
theorem readLines_two :
    ∃ t', readLines [.mbed_scanf, .term_scanf] (terminalWith [List.replicate 2 97, List.replicate 0 97]) =
      some ([List.replicate 2 97, List.replicate 0 97], t') ∧ typed t'.polls = [] := by
  refine (readLines_iff _ ?_ ?_ [.mbed_scanf, .term_scanf] rfl _ (typed_terminalWith _)).mpr ?_
  · intro l hl
    rcases List.mem_pair.mp hl with rfl | rfl
    · exact isLine_replicate 2
    · exact isLine_replicate 0
  · decide
  · decide

/-- A line of 119 characters is followed by an empty one: the carriage return is left in the stream. -/
theorem readLines_full :
    (¬ ∃ t', readLines [.mbed_scanf, .mbed_scanf]
        (terminalWith [List.replicate 119 97, List.replicate 1 97]) =
      some ([List.replicate 119 97, List.replicate 1 97], t') ∧ typed t'.polls = []) ∧
    (readLines [.mbed_scanf, .mbed_scanf]
      (terminalWith [List.replicate 119 97, List.replicate 1 97])).map Prod.fst =
      some [List.replicate 119 97, []] := by
  refine ⟨?_, by decide +kernel⟩
  rintro ⟨t', hrun, hend⟩
  have hlines : ∀ l ∈ [List.replicate 119 (97 : Byte), List.replicate 1 97], IsLine l := by
    intro l hl
    rcases List.mem_pair.mp hl with rfl | rfl
    · exact isLine_replicate 119
    · exact isLine_replicate 1
  have := short_of_readLines hlines (typed_terminalWith _) hrun hend _ List.mem_cons_self
  rw [List.length_replicate] at this
  exact absurd this (by decide)

/-! ## The command loop -/

/-- `"debug"`. -/
def debugLine : List Byte := [0x64, 0x65, 0x62, 0x75, 0x67]

/-- A string literal in memory. -/
def stringLiteral (s : List Byte) : Nat → Byte := fun i => s.getD i 0

/-- `strncmp` from index `i` on, with `n` characters to compare at most. -/
def strncmp (a b : Nat → Byte) : Nat → Nat → Int
  | 0, _ => 0
  | n + 1, i =>
    if a i ≠ b i then (a i).toNat - (b i).toNat
    else if a i = 0 then 0
    else strncmp a b n (i + 1)

/-- The first word of a string, if there is one: what `%s` takes. -/
def firstToken (text : List Byte) : List Byte := (text.dropWhile isBlank).takeWhile fun b => !isBlank b

/-- `main` in its command loop: the terminal, the bytes from the beginning of `line` on, and the indices
of `line` stored so far. -/
structure Shell where
  term : Terminal
  line : Nat → Byte
  stored : Nat → Bool

/-- What one round of the loop did. -/
inductive Reaction where
  | signalled
  | left
  | nothing
  deriving DecidableEq, Repr

namespace Shell

/-- `%s` stores the word and a NUL, or nothing. -/
def scan (m : Shell) (token : List Byte) : Shell :=
  if token = [] then m
  else { m with line := placeAt m.line 0 token, stored := fun i => m.stored i || decide (i ≤ token.length) }

/-- One round.  `else if (strncmp(line, "debug", 80) == 0);` guards the empty statement before the
semicolon, so that the signal is set in any case. -/
def command (m : Shell) : Option (Reaction × Shell) := do
  let (token, term) ← mbed_vscanf firstToken m.term
  let m := scan { m with term := term } token
  if strncmp m.line (stringLiteral quitLine) 80 0 = 0 then pure (.left, m)
  else pure (.signalled, m)

/-- The loop, for `n` rounds at most. -/
def commands : Nat → Shell → Option (List Reaction × Shell)
  | 0, m => some ([], m)
  | n + 1, m => do
    let (o, m) ← m.command
    if o = .left then pure ([o], m)
    else do
      let (os, m) ← commands n m
      pure (o :: os, m)

end Shell

/-- What the lines ask for, up to the first `quit`. -/
def asked : List (List Byte) → List Reaction
  | [] => []
  | l :: lines =>
    if firstToken l = quitLine then [.left]
    else (if firstToken l = debugLine then .signalled else .nothing) :: asked lines

theorem toNat_sub_ne_zero {a b : Byte} (h : a ≠ b) : (a.toNat : Int) - b.toNat ≠ 0 := by
  intro hz
  exact h (BitVec.eq_of_toNat_eq (by omega))

/-- A string that begins at index `i`. -/
def StringAt (a : Nat → Byte) (i : Nat) (s : List Byte) : Prop :=
  ∀ j ≤ s.length, a (i + j) = (s ++ [0]).getD j 0

theorem StringAt.tail {a : Nat → Byte} {i : Nat} {c : Byte} {s : List Byte} (h : StringAt a i (c :: s)) :
    StringAt a (i + 1) s := by
  intro j hj
  have hbyte := h (j + 1) (by rw [List.length_cons]; omega)
  rw [List.cons_append, List.getD_cons_succ] at hbyte
  rw [← hbyte, show i + 1 + j = i + (j + 1) by omega]

/-- `strncmp` compares the strings, where the second is shorter than the limit. -/
theorem strncmp_eq_zero {a b : Nat → Byte} (q : List Byte) : ∀ (s : List Byte) (n i : Nat),
    StringAt a i s → StringAt b i q → (0 : Byte) ∉ s → (0 : Byte) ∉ q → q.length < n →
    (strncmp a b n i = 0 ↔ s = q) := by
  induction q with
  | nil =>
    intro s n i ha hb hs _ hn
    obtain ⟨n, rfl⟩ := Nat.exists_eq_succ_of_ne_zero (Nat.ne_of_gt hn)
    have hbi : b i = 0 := hb 0 (Nat.le_refl 0)
    have hai := ha 0 (Nat.zero_le _)
    rw [Nat.add_zero] at hai
    cases s with
    | nil =>
      have hai : a i = 0 := hai
      simp [strncmp, hai, hbi]
    | cons c s =>
      have hai : a i = c := hai
      have hc : c ≠ 0 := fun h => hs (h ▸ List.mem_cons_self)
      rw [strncmp, hai, hbi, if_pos hc]
      exact ⟨fun h => absurd h (toNat_sub_ne_zero hc), fun h => by cases h⟩
  | cons d q ih =>
    intro s n i ha hb hs hq hn
    rw [List.length_cons] at hn
    obtain ⟨n, rfl⟩ := Nat.exists_eq_succ_of_ne_zero (Nat.ne_of_gt (Nat.zero_lt_of_lt hn))
    have hbi : b i = d := hb 0 (Nat.zero_le _)
    have hd : d ≠ 0 := fun h => hq (h ▸ List.mem_cons_self)
    have hai := ha 0 (Nat.zero_le _)
    rw [Nat.add_zero] at hai
    cases s with
    | nil =>
      have hai : a i = 0 := hai
      rw [strncmp, hai, hbi, if_pos (Ne.symm hd)]
      exact ⟨fun h => absurd h (toNat_sub_ne_zero (Ne.symm hd)), fun h => by cases h⟩
    | cons c s =>
      have hai : a i = c := hai
      by_cases hcd : c = d
      · subst hcd
        rw [strncmp, hai, hbi, if_neg (by simp), if_neg hd,
          ih s n (i + 1) ha.tail hb.tail (fun h => hs (List.mem_cons_of_mem _ h))
            (fun h => hq (List.mem_cons_of_mem _ h)) (by omega)]
        simp
      · rw [strncmp, hai, hbi, if_pos hcd]
        refine ⟨fun h => absurd h (toNat_sub_ne_zero hcd), fun h => ?_⟩
        exact absurd (List.cons.inj h).1 hcd

theorem stringAt_stringLiteral (s : List Byte) : StringAt (stringLiteral s) 0 s := by
  intro j hj
  rw [Nat.zero_add, stringLiteral, List.getD_eq_getElem?_getD, List.getD_eq_getElem?_getD]
  rcases Nat.lt_or_eq_of_le hj with hlt | rfl
  · rw [List.getElem?_append_left hlt]
  · rw [List.getElem?_concat_length, List.getElem?_eq_none (Nat.le_refl _)]
    rfl

theorem stringAt_placeAt (buffer : Nat → Byte) (s : List Byte) : StringAt (placeAt buffer 0 s) 0 s := by
  intro j hj
  rw [placeAt_apply, if_pos (by omega), Nat.zero_add, Nat.sub_zero]

theorem mem_of_mem_firstToken {b : Byte} {text : List Byte} (h : b ∈ firstToken text) : b ∈ text :=
  (List.dropWhile_sublist _).subset ((List.takeWhile_sublist _).subset h)

namespace Shell

/-- The terminal is about to send these lines. -/
structure Awaits (m : Shell) (lines : List (List Byte)) : Prop where
  typed : typed m.term.polls = sent lines
  isLine : ∀ l ∈ lines, IsLine l
  short : ∀ l ∈ lines, l.length < BUF_SIZE - 1

variable {m : Shell} {l : List Byte} {lines : List (List Byte)}

/-- One round: the line is read, its first word scanned, and what is then in `line` compared. -/
theorem Awaits.command (h : m.Awaits (l :: lines)) :
    ∃ term, (scan { m with term := term } (firstToken l)).Awaits lines ∧
      m.command = some (if strncmp (scan { m with term := term } (firstToken l)).line
        (stringLiteral quitLine) 80 0 = 0 then .left else .signalled,
          scan { m with term := term } (firstToken l)) := by
  obtain ⟨t', hcall, hline, hrest⟩ := Reader.mbed_scanf.call_line h.typed
    (h.isLine l List.mem_cons_self) (h.short l List.mem_cons_self)
  have hread : term_readbuffer BUF_SIZE m.term = some t' := by
    cases hterm : term_readbuffer BUF_SIZE m.term with
    | none =>
      rw [Reader.call, mbed_vscanf, hterm] at hcall
      cases hcall
    | some t =>
      rw [Reader.call, mbed_vscanf, hterm] at hcall
      exact hcall
  refine ⟨t', ⟨?_, fun l hl => h.isLine l (List.mem_cons_of_mem _ hl),
    fun l hl => h.short l (List.mem_cons_of_mem _ hl)⟩, ?_⟩
  · unfold scan
    split <;> exact hrest
  · have hscan : mbed_vscanf firstToken m.term = some (firstToken l, t') := by
      rw [mbed_vscanf, hread, ← hline]
      rfl
    rw [Shell.command, hscan]
    show (if strncmp (scan { m with term := t' } (firstToken l)).line (stringLiteral quitLine) 80 0 = 0
      then _ else _) = _
    split <;> rfl

/-- The round of a line with a word in it leaves the loop exactly at `quit`. -/
theorem Awaits.command_token (h : m.Awaits (l :: lines)) (hl : firstToken l ≠ []) :
    ∃ m', m'.Awaits lines ∧ (∀ i, m'.stored i = (m.stored i || decide (i ≤ (firstToken l).length))) ∧
      m.command = some (if firstToken l = quitLine then .left else .signalled, m') := by
  obtain ⟨term, hawaits, hcommand⟩ := h.command
  refine ⟨_, hawaits, fun i => ?_, ?_⟩
  · rw [scan, if_neg hl]
  · have hstring : StringAt (scan { m with term := term } (firstToken l)).line 0 (firstToken l) := by
      rw [scan, if_neg hl]
      exact stringAt_placeAt _ _
    have hcompare := strncmp_eq_zero quitLine (firstToken l) 80 0 hstring (stringAt_stringLiteral quitLine)
      (fun hmem => (h.isLine l List.mem_cons_self).nul (mem_of_mem_firstToken hmem)) (by decide)
      (by decide)
    rw [hcommand]
    simp only [hcompare]

theorem commands_left {n : Nat} {m m₁ : Shell} (h : m.command = some (.left, m₁)) :
    commands (n + 1) m = some ([.left], m₁) := by
  rw [commands, h]
  rfl

theorem commands_signalled {n : Nat} {m m₁ : Shell} (h : m.command = some (.signalled, m₁)) :
    commands (n + 1) m = (commands n m₁).map fun r => (.signalled :: r.1, r.2) := by
  rw [commands, h]
  show (commands n m₁ >>= fun r => some (Reaction.signalled :: r.1, r.2)) = _
  cases commands n m₁ <;> rfl

/-- The lines before the first `quit`. -/
def beforeQuit (lines : List (List Byte)) : List (List Byte) :=
  lines.takeWhile fun l => decide (firstToken l ≠ quitLine)

/-- A loop that reacts as it was asked has been asked for nothing but `debug` before the `quit`: every
line gets a signal unless it ends the loop. -/
theorem debug_of_commands (lines : List (List Byte)) : ∀ m m' : Shell, m.Awaits lines →
    commands lines.length m = some (asked lines, m') →
    ∀ l ∈ beforeQuit lines, firstToken l = debugLine := by
  induction lines with
  | nil => exact fun _ _ _ _ l hl => absurd hl (by simp [beforeQuit])
  | cons l lines ih =>
    intro m m' hm h
    by_cases hquit : firstToken l = quitLine
    · rw [beforeQuit, List.takeWhile_cons_of_neg (by simp [hquit])]
      exact fun _ hl => absurd hl (by simp)
    · rw [beforeQuit, List.takeWhile_cons_of_pos (by simpa using hquit)]
      obtain ⟨term, hawaits, hcommand⟩ := hm.command
      rw [List.length_cons, asked, if_neg hquit] at h
      split at hcommand
      · -- `line` still holds `quit` from before the loop
        rw [commands_left hcommand] at h
        by_cases hdebug : firstToken l = debugLine
        · rw [if_pos hdebug] at h
          cases h
        · rw [if_neg hdebug] at h
          cases h
      · rw [commands_signalled hcommand] at h
        obtain ⟨r, hr, heq⟩ := Option.map_eq_some_iff.mp h
        by_cases hdebug : firstToken l = debugLine
        · rw [if_pos hdebug] at heq
          obtain ⟨hlist, hm'⟩ := Prod.mk.inj heq
          have hlater : r = (asked lines, m') := Prod.ext (List.cons.inj hlist).2 hm'
          rw [hlater] at hr
          intro l' hl'
          rcases List.mem_cons.mp hl' with rfl | hl'
          · exact hdebug
          · exact ih _ m' hawaits hr l' hl'
        · rw [if_neg hdebug] at heq
          cases heq

/-- A loop that is asked for nothing but `debug` before the `quit` reacts as it is asked, and stores
inside `line`. -/
theorem commands_of_debug (lines : List (List Byte)) : ∀ m : Shell, m.Awaits lines →
    (∀ l ∈ beforeQuit lines, firstToken l = debugLine) → (∀ i, m.stored i = true → i < 80) →
    ∃ m', commands lines.length m = some (asked lines, m') ∧ ∀ i, m'.stored i = true → i < 80 := by
  induction lines with
  | nil => exact fun m _ _ hstored => ⟨m, rfl, hstored⟩
  | cons l lines ih =>
    intro m hm hdebug hstored
    by_cases hquit : firstToken l = quitLine
    · obtain ⟨m', -, hstored', hcommand⟩ := hm.command_token (by rw [hquit]; decide)
      rw [if_pos hquit] at hcommand
      refine ⟨m', ?_, fun i hi => ?_⟩
      · rw [List.length_cons, commands_left hcommand, asked, if_pos hquit]
      · rw [hstored', hquit, Bool.or_eq_true, decide_eq_true_eq] at hi
        have hlen : quitLine.length = 4 := rfl
        rcases hi with hi | hi
        · exact hstored i hi
        · omega
    · rw [beforeQuit, List.takeWhile_cons_of_pos (by simpa using hquit)] at hdebug
      have hl : firstToken l = debugLine := hdebug l List.mem_cons_self
      obtain ⟨m₁, hawaits, hstored₁, hcommand⟩ := hm.command_token (by rw [hl]; decide)
      rw [if_neg hquit] at hcommand
      obtain ⟨m', hrun, hin⟩ := ih m₁ hawaits (fun l hl => hdebug l (List.mem_cons_of_mem _ hl))
        fun i hi => by
          rw [hstored₁, hl, Bool.or_eq_true, decide_eq_true_eq] at hi
          have hlen : debugLine.length = 5 := rfl
          rcases hi with hi | hi
          · exact hstored i hi
          · omega
      refine ⟨m', ?_, hin⟩
      rw [List.length_cons, commands_signalled hcommand, hrun, asked, if_neg hquit, if_pos hl]
      rfl

end Shell

/-- `main` at the beginning of its command loop, with whatever is in `line`. -/
def Shell.begin (term : Terminal) (line : Nat → Byte) : Shell := ⟨term, line, fun _ => false⟩

/-- **When the command loop does what its commands say.**  For every sequence of lines of at most
`BUF_SIZE - 2` characters, whenever the terminal has them ready and whatever is in `line` before: a
signal for every `debug` and no other line, the end at the first `quit` and no other line, and
stores below index 80 only, exactly if every line before the first `quit` has `debug` as its
first word. -/
theorem commands_iff (lines : List (List Byte)) (hlines : ∀ l ∈ lines, IsLine l)
    (hsize : ∀ l ∈ lines, l.length ≤ BUF_SIZE - 2) (term : Terminal)
    (htyped : typed term.polls = sent lines) (line : Nat → Byte) :
    (∃ m', Shell.commands lines.length (.begin term line) = some (asked lines, m') ∧
        ∀ i, m'.stored i = true → i < 80) ↔
      ∀ l ∈ Shell.beforeQuit lines, firstToken l = debugLine := by
  have hawaits : (Shell.begin term line).Awaits lines := by
    refine ⟨htyped, hlines, fun l hl => ?_⟩
    have hbuf : BUF_SIZE = 120 := rfl
    have := hsize l hl
    omega
  constructor
  · rintro ⟨m', hrun, -⟩
    exact Shell.debug_of_commands lines _ m' hawaits hrun
  · intro h
    exact Shell.commands_of_debug lines _ hawaits h fun i hi => by cases hi

/-- Two `debug` lines and a `quit`. -/
theorem commands_debug_quit :
    ∃ m', Shell.commands 3 (.begin (terminalWith [debugLine, debugLine, quitLine]) fun _ => 0) =
      some ([.signalled, .signalled, .left], m') ∧ ∀ i, m'.stored i = true → i < 80 := by
  refine (commands_iff [debugLine, debugLine, quitLine] ?_ (by decide) _ (typed_terminalWith _) _).mpr ?_
  · intro l hl
    simp only [List.mem_cons, List.not_mem_nil, or_false] at hl
    rcases hl with rfl | rfl | rfl
    · exact ⟨by decide, by decide⟩
    · exact ⟨by decide, by decide⟩
    · exact ⟨by decide, by decide⟩
  · decide

/-- The line `help` sets the signal, an empty line after it does too, and a word of 80 characters is
stored past the end of `line`. -/
theorem commands_help :
    (¬ ∃ m', Shell.commands 1 (.begin (terminalWith [[0x68, 0x65, 0x6C, 0x70]]) fun _ => 0) =
      some (asked [[0x68, 0x65, 0x6C, 0x70]], m') ∧ ∀ i, m'.stored i = true → i < 80) ∧
    (Shell.commands 2 (.begin (terminalWith [[0x68, 0x65, 0x6C, 0x70], []]) fun _ => 0)).map Prod.fst =
      some [.signalled, .signalled] ∧
    (Shell.commands 1 (.begin (terminalWith [List.replicate 80 97]) fun _ => 0)).map
      (fun r => r.2.stored 80) = some true := by
  refine ⟨?_, by decide +kernel, by decide +kernel⟩
  rintro ⟨m', hrun, -⟩
  have hreaction : (Shell.commands 1 (.begin (terminalWith [[0x68, 0x65, 0x6C, 0x70]])
      fun _ => 0)).map Prod.fst = some [.signalled] := by decide +kernel
  rw [hrun] at hreaction
  have hasked : asked [[0x68, 0x65, 0x6C, 0x70]] = [.signalled] := Option.some.inj hreaction
  exact absurd hasked (by decide)

end Expedition
