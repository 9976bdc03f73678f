import LineScript.Proofs.Lexer.LongestMatch

/-!
# The tokens of two texts, one below the other

If a text can be split into tokens and a second one is put on a line of its own after it, the tokens
are those of the first, the line break, and those of the second with their places moved; and if the
second has a flaw, this is found at its new place.

  * `Position.shift origin p`: where the place `p` of a text comes to stand if the text starts at
    `origin`.
  * `resume tail tokens`: the tokens up to the end of input, which becomes a separator, and after it
    those of `tail`.

**Key idea.** No lexeme of several characters holds a line feed, strings apart, and these are closed
before the first text ends. So a lexeme that is the longest in the first text is still the longest
if a line feed follows.
-/

namespace LineScript

/-! ### Places -/

/-- The place `p` of a text that starts at `origin`. The columns move on the first line only. -/
def Position.shift (origin p : Position) : Position :=
  ⟨origin.offset + p.offset, origin.line + p.line,
    if p.line = 0 then origin.column + p.column else p.column⟩

theorem Position.shift_start (origin : Position) : origin.shift .start = origin := rfl

theorem Position.shift_advance (origin p : Position) (c : Char) :
    origin.shift (p.advance c) = (origin.shift p).advance c := by
  unfold Position.advance
  split
  · simp [Position.shift, Nat.add_assoc]
  · simp only [Position.shift, Nat.add_assoc]
    split <;> rfl

/-- A token of a text that starts at `origin`. -/
def Located.shift (origin : Position) (t : Located) : Located :=
  ⟨t.token, origin.shift t.position⟩

/-! ### Tokens -/

/-- The tokens up to the end of input, which becomes a separator, and after it those of `tail`. -/
def resume (tail : List Located) : List Located → List Located
  | [] => []
  | t :: ts => if t.token = .eof then ⟨.newline, t.position⟩ :: tail else t :: resume tail ts

theorem resume_cons (tail : List Located) {t : Located} (ts : List Located) (h : t.token ≠ .eof) :
    resume tail (t :: ts) = t :: resume tail ts := by
  rw [resume, if_neg h]

theorem resume_eof (tail : List Located) (p : Position) (ts : List Located) :
    resume tail (⟨.eof, p⟩ :: ts) = ⟨.newline, p⟩ :: tail := by
  rw [resume, if_pos rfl]

theorem resume_append (tail : List Located) {init : List Located} (ts : List Located)
    (h : ∀ t ∈ init, t.token ≠ .eof) : resume tail (init ++ ts) = init ++ resume tail ts := by
  induction init with
  | nil => rfl
  | cons t init ih =>
    obtain ⟨ht, hinit⟩ := List.forall_mem_cons.mp h
    rw [List.cons_append, resume_cons tail _ ht, ih hinit, List.cons_append]

/-- What a text that starts at `origin` is split into, given what it is split into on its own. -/
def shiftResult (origin : Position) :
    Except LexError (List Located) → Except LexError (List Located)
  | .ok tokens => .ok (tokens.map (Located.shift origin))
  | .error e => .error ⟨e.flaw, origin.shift e.position⟩

theorem shiftResult_map (origin : Position) (t : Located)
    (result : Except LexError (List Located)) :
    shiftResult origin (result.map (t :: ·)) =
      (shiftResult origin result).map (t.shift origin :: ·) := by
  cases result <;> rfl

/-- A text has the same tokens, or the same flaw, wherever it starts. -/
theorem Lexer.tokensFrom_shift (origin p : Position) (skip : Nat) (cs : List Char) :
    tokensFrom (origin.shift p) skip cs =
      shiftResult origin (tokensFrom p skip cs) := by
  induction cs generalizing p skip with
  | nil => cases skip <;> rfl
  | cons c cs ih =>
    cases skip with
    | succ skip =>
      rw [tokensFrom, tokensFrom, ← Position.shift_advance]
      exact ih _ skip
    | zero =>
      rw [tokensFrom, tokensFrom, ← Position.shift_advance]
      split
      · exact ih _ 0
      · cases lexeme c cs with
        | ok found =>
          obtain ⟨token, k⟩ := found
          dsimp only
          rw [ih, shiftResult_map]
          rfl
        | error flaw => rfl

/-! ### Lexemes before a line feed -/

namespace Lexicon

/-- No lexeme of several characters holds a line feed. -/
theorem Reading.not_mem_newline {c : Char} {cs : List Char} {reading : Except Flaw Token}
    (h : Reading (c :: cs) reading) : '\n' ∉ cs := by
  have hdigit : ¬ Digit '\n' := by simp [Digit, Char.le_def]
  have hname : ¬ NameRest '\n' := by
    rw [← isNameRest_iff]
    decide
  have hjoining : ¬ Joining '\n' := by
    unfold Joining
    decide
  intro hmem
  rcases h.classes with ⟨-, hdigits | ⟨ds, fs, rfl, hds, hfs⟩⟩ | ⟨-, hrest⟩ | ⟨-, hrun⟩ | rfl
  · exact hdigit (hdigits _ hmem)
  · rcases List.mem_append.mp hmem with hmem | hmem
    · exact hdigit (hds _ hmem)
    · rcases List.mem_cons.mp hmem with hpoint | hmem
      · exact absurd hpoint (by decide)
      · exact hdigit (hfs _ hmem)
  · exact hname (hrest _ hmem)
  · exact hjoining (hrun _ hmem)
  · cases hmem

/-- The longest lexeme is still the longest if the text goes on after a line feed. -/
theorem Longest.append_newline {text rest : List Char} (h : Longest text rest) (ds : List Char) :
    Longest text (rest ++ '\n' :: ds) := by
  refine ⟨h.lexeme, ?_⟩
  intro text' rest' reading hreading happend
  obtain ⟨c, cs, rfl⟩ := hreading.exists_cons
  obtain ⟨_, hlexeme⟩ := h.lexeme
  obtain ⟨d, es, rfl⟩ := hlexeme.exists_cons
  rw [← List.append_assoc] at happend
  rcases List.append_eq_append_iff.mp happend with ⟨more, hwithin, -⟩ | ⟨more, hbeyond, hmore⟩
  · exact h.longest _ more reading hreading hwithin.symm
  · -- a lexeme that reaches the line feed would hold it
    cases more with
    | nil =>
      rw [List.append_nil] at hbeyond
      exact h.longest _ [] reading hreading (by rw [List.append_nil, hbeyond])
    | cons e more =>
      obtain ⟨rfl, -⟩ := List.cons.inj hmore
      obtain ⟨rfl, rfl⟩ := List.cons.inj hbeyond
      exact absurd (by simp) hreading.not_mem_newline

theorem longest_newline (ds : List Char) : Longest ['\n'] ds := by
  refine ⟨⟨_, .newline (.inl rfl)⟩, ?_⟩
  intro text rest reading hreading happend
  obtain ⟨c, cs, rfl⟩ := hreading.exists_cons
  obtain ⟨rfl, -⟩ := List.cons.inj happend
  rcases hreading.classes with ⟨hdigit, -⟩ | ⟨hname, -⟩ | ⟨hjoins, -⟩ | rfl
  · exact absurd hdigit (by simp [Digit, Char.le_def])
  · exact absurd (isNameStart_iff.mpr hname) (by decide)
  · exact absurd (isOperatorChar_iff.mpr hjoins) (by decide)
  · exact Nat.le_refl 1

theorem Reading.ne_eof {text : List Char} {token : Token} (h : Reading text (.ok token)) :
    token ≠ .eof := by
  rintro rfl
  cases h

/-! ### Whole texts -/

theorem tokens_of_map {first : Located} {rest : Except LexError (List Located)}
    {tokens : List Located} (h : rest.map (first :: ·) = .ok tokens) :
    ∃ ts, rest = .ok ts ∧ tokens = first :: ts := by
  cases rest with
  | error e => cases h
  | ok ts => exact ⟨ts, rfl, (Except.ok.inj h).symm⟩

theorem map_resume_cons {t : Located} (h : t.token ≠ .eof) (ts : List Located)
    (tail : Except LexError (List Located)) :
    tail.map (resume · (t :: ts)) = (tail.map (resume · ts)).map (t :: ·) := by
  cases tail with
  | ok tail => exact congrArg Except.ok (resume_cons tail ts h)
  | error e => rfl

/-- The tokens of a text that goes on after a line feed, or the flaw in what comes after it. -/
theorem Scans.resume {p : Position} {cs ds : List Char} {tokens : List Located}
    {tail : Except LexError (List Located)} (h : Scans p cs (.ok tokens))
    (htail : Scans ((p.advanceAll cs).advance '\n') ds tail) :
    Scans p (cs ++ '\n' :: ds) (tail.map (resume · tokens)) := by
  generalize hresult : Except.ok tokens = result at h
  induction h generalizing tokens with
  | @eof p =>
    cases hresult
    simp only [resume_eof]
    have hnewline : Scans p (['\n'] ++ ds) (tail.map (⟨.newline, p⟩ :: ·)) :=
      .lexeme (longest_newline ds) (.newline (.inl rfl)) htail
    exact hnewline
  | blank hblank _ ih => exact .blank hblank (ih htail hresult)
  | @string p value text rest result hquoted _ ih =>
    obtain ⟨ts, rfl, rfl⟩ := tokens_of_map hresult.symm
    have hplace : p.advanceAll ('"' :: (text ++ '"' :: rest)) =
        (p.advanceAll ('"' :: (text ++ ['"']))).advanceAll rest := by
      rw [← Position.advanceAll_append, List.cons_append, ← List.append_cons]
    have hstring : (Token.str (String.ofList value)) ≠ .eof := nofun
    rw [hplace] at htail
    rw [map_resume_cons hstring, List.cons_append, List.append_assoc]
    exact .string hquoted (ih htail rfl)
  | @lexeme p text rest token result hlongest hreading _ ih =>
    obtain ⟨ts, rfl, rfl⟩ := tokens_of_map hresult.symm
    rw [Position.advanceAll_append] at htail
    rw [map_resume_cons hreading.ne_eof, List.append_assoc]
    exact .lexeme (hlongest.append_newline ds) hreading (ih htail rfl)
  | unclosed => cases hresult
  | malformed => cases hresult
  | illegal => cases hresult

end Lexicon

/-- What two texts are split into, the second on a line of its own after the first. -/
theorem tokenize_below {a : String} {ta : List Located} (ha : tokenize a = .ok ta) (b : String) :
    tokenize (a ++ "\n" ++ b) =
      (shiftResult (Position.start.advanceAll (a ++ "\n").toList) (tokenize b)).map
        (resume · ta) := by
  have hbelow := Lexer.tokensFrom_shift (Position.start.advanceAll (a ++ "\n").toList) .start 0
    b.toList
  rw [Position.shift_start, String.toList_append, Position.advanceAll_append] at hbelow
  have hfirst : Lexicon.Scans .start a.toList (.ok ta) := ha ▸ Lexicon.scans_tokensFrom _ _
  have hsecond := hbelow ▸ Lexicon.scans_tokensFrom _ b.toList
  have hwhole := Lexicon.tokensFrom_of_scans (hfirst.resume hsecond)
  unfold tokenize
  simpa [String.toList_append, Position.advanceAll_append] using hwhole

/-- The tokens of two texts, the second on a line of its own after the first. -/
theorem tokenize_append_newline {a b : String} {ta tb : List Located} (ha : tokenize a = .ok ta)
    (hb : tokenize b = .ok tb) :
    tokenize (a ++ "\n" ++ b) =
      .ok (resume (tb.map (Located.shift (Position.start.advanceAll (a ++ "\n").toList))) ta) := by
  rw [tokenize_below ha, hb]
  rfl

end LineScript
