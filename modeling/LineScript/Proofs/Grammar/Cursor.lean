import LineScript.Grammar

/-!
# Cursors as lists

The rules of the grammar see a list of tokens through an index. Here the index is traded for the
tokens that are still to be read.

  * `Cursor.rest` is the list of tokens from the current one on, `next` the first token of such a
    list.
  * `Cursor.Ended` says that the tokens end with the end of input and that the cursor stands on one
    of them. It is what every theorem about the grammar assumes: only then does moving on from a
    token other than the end of input always move.
  * `Cursor.Reaches c d` says that `d` is a later state of the same reading as `c`.

On ended cursors, moving past a token drops the head of `rest`, and skipping separators drops all
separators at its front.
-/

namespace LineScript

/-- The first token of a list; past the end it is the end of input. -/
def next (ts : List Located) : Token :=
  (ts.head?.map Located.token).getD .eof

@[simp] theorem next_cons (t : Located) (ts : List Located) : next (t :: ts) = t.token := rfl

/-- Tokens without a place of their own: all stand at the start. -/
def atStart (tokens : List Token) : List Located :=
  tokens.map fun token => ⟨token, .start⟩

/-- Whether a token is a separator. -/
def Located.isNewline (t : Located) : Bool :=
  t.token = .newline

namespace Cursor

/-- The tokens from the current one on. -/
def rest (c : Cursor) : List Located :=
  c.tokens.toList.drop c.index

/-- The tokens end with the end of input, and the cursor stands on one of them. -/
structure Ended (c : Cursor) : Prop where
  /-- The cursor stands on a token. -/
  inside : c.index < c.tokens.size
  /-- The last token is the end of input. -/
  last : ∃ p, c.tokens.back? = some ⟨.eof, p⟩

/-- The same tokens, read at least as far, and not past the last one. -/
structure Reaches (c d : Cursor) : Prop where
  /-- The tokens are the same. -/
  tokens : d.tokens = c.tokens
  /-- The reading has not gone back. -/
  index_le : c.index ≤ d.index
  /-- The cursor stands on a token. -/
  inside : d.index < c.tokens.size

variable {c d c₁ c₂ : Cursor}

theorem Ended.refl (h : c.Ended) : c.Reaches c :=
  ⟨rfl, Nat.le_refl _, h.inside⟩

theorem Reaches.ended (h : c.Reaches d) (hc : c.Ended) : d.Ended := by
  refine ⟨?_, ?_⟩
  · rw [h.tokens]; exact h.inside
  · rw [h.tokens]; exact hc.last

theorem Reaches.trans (h : c.Reaches c₁) (h' : c₁.Reaches c₂) : c.Reaches c₂ :=
  ⟨h'.tokens.trans h.tokens, Nat.le_trans h.index_le h'.index_le, h.tokens ▸ h'.inside⟩

/-- A cursor with the same tokens and the same index is at the same place. -/
theorem Reaches.of_same (hc : c.Ended) (htokens : d.tokens = c.tokens)
    (hindex : d.index = c.index) :
    c.Reaches d :=
  ⟨htokens, Nat.le_of_eq hindex.symm, hindex ▸ hc.inside⟩

theorem rest_length (c : Cursor) : c.rest.length = c.tokens.size - c.index := by
  simp [rest]

theorem Reaches.rest_length_le (h : c.Reaches d) : d.rest.length ≤ c.rest.length := by
  have hle := h.index_le
  rw [rest_length, rest_length, h.tokens]
  omega

/-! ### The current token -/

/-- On an ended cursor the current token is the first of the rest. -/
theorem Ended.rest_eq (h : c.Ended) :
    c.rest = c.current :: c.tokens.toList.drop (c.index + 1) := by
  have hlt : c.index < c.tokens.toList.length := by
    rw [Array.length_toList]; exact h.inside
  have hcurrent : c.current = c.tokens.toList[c.index] := by
    simp [current, h.inside]
  rw [rest, List.drop_eq_getElem_cons hlt, hcurrent]

theorem Ended.next_rest (h : c.Ended) : next c.rest = c.peek := by
  rw [h.rest_eq]; rfl

/-- A token other than the end of input is not the last one. -/
theorem Ended.index_lt (h : c.Ended) (hne : c.peek ≠ .eof) : c.index + 1 < c.tokens.size := by
  obtain ⟨p, hlast⟩ := h.last
  have hinside := h.inside
  refine Classical.not_not.mp fun hnot => hne ?_
  -- the only index that is left is that of the last token
  have hindex : c.index = c.tokens.size - 1 := by omega
  have hcurrent : c.current = ⟨.eof, p⟩ := by
    rw [current, hindex, ← Array.back?_eq_getElem?, hlast]
    rfl
  rw [peek, hcurrent]

/-- The end of input is the current token only at the end, if it occurs only there. -/
theorem Ended.rest_eq_singleton (h : c.Ended) (hpeek : c.peek = .eof)
    (honce : ∀ t ∈ c.tokens.toList.dropLast, t.token ≠ .eof) : c.rest = [c.current] := by
  have hinside := h.inside
  rw [h.rest_eq]
  by_cases hlast : c.index + 1 < c.tokens.size
  · -- then the current token stands before the last one
    have hlt : c.index < c.tokens.toList.length := by rw [Array.length_toList]; exact hinside
    have hcurrent : c.current = c.tokens.toList[c.index] := by simp [current, hinside]
    have hmem : c.current ∈ c.tokens.toList.dropLast := by
      rw [hcurrent, List.mem_iff_getElem]
      refine ⟨c.index, ?_, ?_⟩
      · rw [List.length_dropLast, Array.length_toList]; omega
      · exact List.getElem_dropLast _
    exact absurd hpeek (honce _ hmem)
  · rw [List.drop_eq_nil_of_le]
    rw [Array.length_toList]; omega

/-! ### Moving on -/

theorem Ended.advance_eq (h : c.Ended) (hne : c.peek ≠ .eof) :
    c.advance = { c with index := c.index + 1 } := by
  rw [advance, if_pos (h.index_lt hne)]

theorem Ended.reaches_advance (h : c.Ended) : c.Reaches c.advance := by
  rw [advance]
  split
  · next hlt => exact ⟨rfl, Nat.le_succ _, hlt⟩
  · exact h.refl

theorem Ended.rest_eq_cons_advance (h : c.Ended) (hne : c.peek ≠ .eof) :
    c.rest = c.current :: c.advance.rest := by
  rw [h.rest_eq, h.advance_eq hne]
  rfl

theorem Ended.index_lt_advance (h : c.Ended) (hne : c.peek ≠ .eof) :
    c.index < c.advance.index := by
  rw [h.advance_eq hne]
  exact Nat.lt_succ_self _

/-! ### Separators -/

theorem reaches_skipNewlinesUpTo (limit : Nat) (h : c.Ended) :
    c.Reaches (skipNewlinesUpTo limit c).2 := by
  induction limit generalizing c with
  | zero => exact h.refl
  | succ limit ih =>
    rw [skipNewlinesUpTo]
    split
    · have hstep := h.reaches_advance
      exact hstep.trans (ih (hstep.ended h))
    · exact h.refl

theorem rest_skipNewlinesUpTo {limit : Nat} (h : c.Ended) (hlimit : c.rest.length ≤ limit) :
    (skipNewlinesUpTo limit c).2.rest = c.rest.dropWhile Located.isNewline ∧
      (skipNewlinesUpTo limit c).1 = (c.rest.takeWhile Located.isNewline).length := by
  -- the limit goes down with the rest, so it is not reached while separators are left
  induction limit generalizing c with
  | zero =>
    rw [h.rest_eq] at hlimit
    simp at hlimit
  | succ limit ih =>
    rw [skipNewlinesUpTo]
    by_cases hpeek : c.peek = .newline
    · have hne : c.peek ≠ .eof := by rw [hpeek]; decide
      have hrest := h.rest_eq_cons_advance hne
      have hnewline : c.current.isNewline = true := decide_eq_true hpeek
      have hlimit' : c.advance.rest.length ≤ limit := by
        rw [hrest, List.length_cons] at hlimit; omega
      obtain ⟨ihrest, ihcount⟩ := ih (h.reaches_advance.ended h) hlimit'
      simp [hpeek, hrest, hnewline, ihrest, ihcount]
    · have hother : c.current.isNewline = false := decide_eq_false hpeek
      rw [if_neg hpeek, h.rest_eq]
      simp [hother]

theorem Ended.reaches_skipNewlines (h : c.Ended) : c.Reaches c.skipNewlines.2 :=
  reaches_skipNewlinesUpTo _ h

theorem rest_length_le_size (c : Cursor) : c.rest.length ≤ c.tokens.size := by
  rw [rest_length]; exact Nat.sub_le _ _

theorem Ended.rest_skipNewlines (h : c.Ended) :
    c.skipNewlines.2.rest = c.rest.dropWhile Located.isNewline :=
  (rest_skipNewlinesUpTo h c.rest_length_le_size).1

theorem Ended.skipNewlines_eq_zero (h : c.Ended) : c.skipNewlines.1 = 0 ↔ c.peek ≠ .newline := by
  have hcount := (rest_skipNewlinesUpTo h c.rest_length_le_size).2
  rw [skipNewlines, hcount, h.rest_eq]
  by_cases hpeek : c.peek = .newline
  · have hnewline : c.current.isNewline = true := decide_eq_true hpeek
    simp [hnewline, hpeek]
  · have hother : c.current.isNewline = false := decide_eq_false hpeek
    simp [hother, hpeek]

end Cursor

end LineScript
