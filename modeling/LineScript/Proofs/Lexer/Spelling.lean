import LineScript.Proofs.Lexer.Tiling
import LineScript.Proofs.Lexer.Writing

/-!
# Tokens that are written are read back

Any tokens can be written next to each other, whatever they are, if there is at least one blank
between two of them: the text is split into these tokens again.

  * `Token.Writable`: the tokens that can be written. Numbers are digits, names are names, and a
    string may hold anything.
  * `Token.forms`: how a token is written. There are two ways to write a separator and one to write
    anything else.
  * `Piece.Written`: a token, one of its forms, and blanks before it.

**Key idea.** Blanks are found in no lexeme, strings apart, and a string ends with its own quote
whatever its value is (`quoted_guarded`). So before a blank every lexeme is the longest one
(`Reading.longest`), and a tiling whose gaps are not empty is the only one (`Tiling.scans`).
-/

namespace LineScript

open Lexicon

/-! ### How tokens are written -/

/-- How a character is written between quotes: a quote and a backslash are preceded by a backslash,
and any other character stands for itself. -/
def Lexicon.guarded (c : Char) : List Char :=
  if c = '"' ∨ c = '\\' then ['\\', c] else [c]

namespace Token

/-- The tokens that can be written down. -/
def Writable : Token → Prop
  | int text => text.toList ≠ [] ∧ ∀ c ∈ text.toList, Digit c
  | float text => ∃ digits fraction, text.toList = digits ++ '.' :: fraction ∧ digits ≠ [] ∧
      (∀ c ∈ digits, Digit c) ∧ ∀ c ∈ fraction, Digit c
  | identifier name => NameShape name.toList ∧ ∀ word : Keyword, word.spelling ≠ name
  | str _ | keyword _ | symbol _ | newline => True
  | malformed _ | eof => False

/-- The ways to write a token. -/
def forms : Token → List (List Char)
  | int text | float text => [text.toList]
  | str value => ['"' :: (value.toList.flatMap guarded ++ ['"'])]
  | keyword word => [word.spelling.toList]
  | identifier name => [name.toList]
  | symbol mark => [mark.spelling.toList]
  | newline => [['\n'], ['\u204b']]
  | malformed _ | eof => []

end Token

/-- A token that is written in one of its forms, after blanks. -/
structure Piece.Written (piece : Piece) : Prop where
  /-- Before the token there are blanks only. -/
  gap : ∀ c ∈ piece.gap, Blank c
  /-- The token can be written. -/
  token : piece.token.Writable
  /-- It is written in one of its forms. -/
  lexeme : piece.lexeme ∈ piece.token.forms

namespace Lexicon

/-- Whatever a string holds, what is written between its quotes stands for it. -/
theorem quoted_guarded (value : List Char) : Quoted value (value.flatMap guarded) := by
  induction value with
  | nil => exact .nil
  | cons c value ih =>
    rw [List.flatMap_cons]
    unfold guarded
    split
    · exact .escaped ih
    · next hplain =>
      rw [not_or] at hplain
      exact .plain hplain.1 hplain.2 ih

theorem nameShape_keyword (word : Keyword) : NameShape word.spelling.toList := by
  cases word <;>
    exact ⟨isNameStart_iff.mp rfl, fun d hd => isNameRest_iff.mp (List.all_eq_true.mp rfl d hd)⟩

theorem reading_symbol (mark : Symbol) :
    Reading mark.spelling.toList (.ok (.symbol mark)) := by
  by_cases h : mark ∈ operators
  · exact .operator h
  · have hmark : mark ∈ marks := by
      revert h
      cases mark <;> decide
    exact .mark hmark

/-- A form of a token is a lexeme of it. -/
theorem spells_of_form {token : Token} {text : List Char} (h : token.Writable)
    (hform : text ∈ token.forms) : Spells token text := by
  cases token with
  | int digits =>
    obtain rfl := List.mem_singleton.mp hform
    have hreading := Reading.integer h.1 h.2
    rw [String.ofList_toList] at hreading
    exact .plain hreading
  | float number =>
    obtain rfl := List.mem_singleton.mp hform
    obtain ⟨digits, fraction, hsplit, hsome, hdigits, hfraction⟩ := h
    have hreading := Reading.float hsome hdigits hfraction
    rw [← hsplit, String.ofList_toList] at hreading
    exact .plain hreading
  | str value =>
    obtain rfl := List.mem_singleton.mp hform
    have hstring := Spells.string (quoted_guarded value.toList)
    rw [String.ofList_toList] at hstring
    exact hstring
  | keyword word =>
    obtain rfl := List.mem_singleton.mp hform
    exact .plain (.keyword (nameShape_keyword word) String.ofList_toList.symm)
  | identifier name =>
    obtain rfl := List.mem_singleton.mp hform
    obtain ⟨hshape, hfree⟩ := h
    rw [← String.ofList_toList (s := name)] at hfree
    have hreading := Reading.identifier hshape hfree
    rw [String.ofList_toList] at hreading
    exact .plain hreading
  | symbol mark =>
    obtain rfl := List.mem_singleton.mp hform
    exact .plain (reading_symbol mark)
  | malformed => exact h.elim
  | newline =>
    rcases List.mem_pair.mp hform with rfl | rfl
    · exact .plain (.newline (.inl rfl))
    · exact .plain (.newline (.inr rfl))
  | eof => exact h.elim

/-! ### Lexemes before blanks -/

theorem Blank.delimiter {c : Char} (h : Blank c) : Delimiter c := by
  simp only [Blank, List.mem_cons, List.not_mem_nil, or_false] at h
  rcases h with rfl | rfl | rfl | rfl
  · decide
  · decide
  · decide
  · decide

/-- No lexeme goes on with a delimiter. -/
theorem Reading.not_mem_delimiter {c : Char} {cs : List Char} {reading : Except Flaw Token}
    (h : Reading (c :: cs) reading) {d : Char} (hd : Delimiter d) : d ∉ cs := by
  have hdigit : ¬ Digit d := fun hdigit => hd.name (.inr (.inl hdigit))
  intro hmem
  -- digits, digits around a point, a name, a run, or a single character
  rcases h.classes with ⟨-, hdigits | ⟨ds, fs, rfl, hds, hfs⟩⟩ | ⟨-, hrest⟩ | ⟨-, hrun⟩ | rfl
  · exact hdigit (hdigits d hmem)
  · simp only [List.mem_append, List.mem_cons] at hmem
    rcases hmem with hmem | hpoint | hmem
    · exact hdigit (hds d hmem)
    · exact hd.point hpoint
    · exact hdigit (hfs d hmem)
  · exact hd.name (hrest d hmem)
  · exact hd.operator (hrun d hmem)
  · cases hmem

/-- Before a blank, and at the end of the text, a lexeme is the longest one. -/
theorem Reading.longest {text rest : List Char} {reading : Except Flaw Token}
    (h : Reading text reading) (hrest : ∀ c ∈ rest.head?, Blank c) : Longest text rest := by
  refine ⟨⟨reading, h⟩, ?_⟩
  intro text' rest' reading' hreading' happend
  by_contra hlonger
  obtain ⟨c, cs, rfl⟩ := h.exists_cons
  obtain ⟨d, ds, rfl⟩ := hreading'.exists_cons
  -- a longer lexeme would hold the first character of what follows
  rcases List.append_eq_append_iff.mp happend with ⟨more, hwithin, -⟩ | ⟨more, hbeyond, hmore⟩
  · rw [hwithin, List.length_append] at hlonger
    omega
  · cases more with
    | nil =>
      rw [hbeyond, List.append_nil] at hlonger
      omega
    | cons e more =>
      have hblank : Blank e := hrest e (by rw [hmore]; rfl)
      have hmem : e ∈ ds := by
        rw [(List.cons.inj hbeyond).2]
        simp
      exact hreading'.not_mem_delimiter hblank.delimiter hmem

/-! ### Whole texts -/

variable {before text : List Char}

/-- A run of blanks only moves the place. -/
theorem Scans.gap {gap : List Char} {result : Except LexError (List Located)}
    (hgap : ∀ c ∈ gap, Blank c) (h : Scans (.after (before ++ gap)) text result) :
    Scans (.after before) (gap ++ text) result := by
  induction gap generalizing before with
  | nil =>
    rw [List.append_nil] at h
    exact h
  | cons c gap ih =>
    obtain ⟨hc, hgap⟩ := List.forall_mem_cons.mp hgap
    rw [List.append_cons] at h
    refine .blank hc ?_
    rw [Position.advance_after]
    exact ih hgap h

/-- Before a blank, and at the end of the text, a lexeme of a token is read as this token. -/
theorem Scans.spelled {token : Token} {lexeme : List Char} {tokens : List Located}
    (hspells : Spells token lexeme) (htext : ∀ c ∈ text.head?, Blank c)
    (h : Scans (.after (before ++ lexeme)) text (.ok tokens)) :
    Scans (.after before) (lexeme ++ text) (.ok (⟨token, .after before⟩ :: tokens)) := by
  rw [← Position.advanceAll_after] at h
  cases hspells with
  | plain hreading => exact .lexeme (hreading.longest htext) hreading h
  | @string value quoted hquoted =>
    rw [List.cons_append, List.append_assoc]
    exact .string hquoted h

end Lexicon

/-- A text is read as its tiling says, if no gap but the first is empty. -/
theorem Tiling.scans {before text last : List Char} {tokens : List Located} {pieces : List Piece}
    (h : Tiling before text tokens pieces last) (hapart : ∀ piece ∈ pieces.tail, piece.gap ≠ []) :
    Scans (.after before) text (.ok tokens) := by
  obtain ⟨rfl, hsound, hlast, rfl⟩ := h
  induction pieces generalizing before with
  | nil =>
    have hend : Scans (.after (before ++ last)) [] (.ok [⟨.eof, .after (before ++ last)⟩]) := .eof
    have hblanks := hend.gap hlast
    rw [List.append_nil] at hblanks
    exact hblanks
  | cons piece pieces ih =>
    obtain ⟨hpiece, hsound⟩ := List.forall_mem_cons.mp hsound
    rw [List.tail_cons] at hapart
    have hrest := @ih (before ++ piece.text) (fun p hp => hapart p (List.mem_of_mem_tail hp)) hsound
    -- what follows the lexeme is nothing, or begins with the blanks before the next one
    have hnext : ∀ c ∈ (pieces.flatMap Piece.text ++ last).head?, Blank c := by
      intro c hc
      cases pieces with
      | nil => exact hlast c (List.mem_of_mem_head? hc)
      | cons next pieces =>
        obtain ⟨d, gap, hgap⟩ := List.exists_cons_of_ne_nil (hapart next List.mem_cons_self)
        have hblanks := (hsound next List.mem_cons_self).gap
        rw [hgap] at hblanks
        rw [List.flatMap_cons, Piece.text, hgap] at hc
        obtain rfl : d = c := Option.some.inj hc
        exact hblanks d List.mem_cons_self
    rw [Piece.text, ← List.append_assoc] at hrest
    have hspelled := (hrest.spelled hpiece.lexeme hnext).gap hpiece.gap
    simpa only [List.flatMap_cons, Piece.text, Piece.tokensAfter, List.append_assoc,
      List.cons_append] using hspelled

theorem Piece.map_token_tokensAfter (before : List Char) (pieces : List Piece) :
    (tokensAfter before pieces).map Located.token = pieces.map Piece.token := by
  induction pieces generalizing before with
  | nil => rfl
  | cons piece pieces ih => rw [tokensAfter, List.map_cons, List.map_cons, ih]

/-- **Spelling round trip.** Tokens that are written one after the other, with blanks before the
first and after the last as one likes and at least one blank between any two, are read back: the
text is split into these tokens, each where it was written, and one end of input. -/
theorem written_tokens_read_back (pieces : List Piece) (last : List Char)
    (hpieces : ∀ piece ∈ pieces, piece.Written) (hapart : ∀ piece ∈ pieces.tail, piece.gap ≠ [])
    (hlast : ∀ c ∈ last, Blank c) :
    ∃ tokens, tokenize (String.ofList (pieces.flatMap Piece.text ++ last)) = .ok tokens ∧
      tokens.map Located.token = pieces.map Piece.token ++ [.eof] ∧
      Tiling [] (pieces.flatMap Piece.text ++ last) tokens pieces last := by
  have hsound : ∀ piece ∈ pieces, piece.Sound := fun piece hpiece =>
    ⟨(hpieces piece hpiece).gap, spells_of_form (hpieces piece hpiece).token
      (hpieces piece hpiece).lexeme⟩
  have htiling : Tiling [] (pieces.flatMap Piece.text ++ last) _ pieces last :=
    ⟨rfl, hsound, hlast, rfl⟩
  refine ⟨_, ?_, ?_, htiling⟩
  · unfold tokenize
    rw [String.toList_ofList]
    exact tokensFrom_of_scans (htiling.scans hapart)
  · rw [List.map_append, Piece.map_token_tokensAfter]
    rfl

/-- Two operators that would join, a string of a quote, a line feed and a backslash, and numbers that
would be one. -/
def hardPieces : List Piece :=
  [⟨[], ['='], .symbol .equals⟩, ⟨['\t'], ['=', '>'], .symbol .arrow⟩,
    ⟨[' '], ['"', '\\', '"', '\n', '\\', '\\', '"'], .str "\"\n\\"⟩,
    ⟨[' ', '\r'], ['1', '.'], .float "1."⟩, ⟨['\x0c'], ['2'], .int "2"⟩,
    ⟨[' '], ['\u204b'], .newline⟩, ⟨[' '], ['E', 'N', 'D'], .keyword .end_⟩,
    ⟨[' '], ['Ñ', '_'], .identifier "Ñ_"⟩]

theorem hardPieces_written : ∀ piece ∈ hardPieces, piece.Written := by
  have hgaps : hardPieces.all (fun piece => piece.gap.all Lexer.isBlank) = true := rfl
  have hforms : ∀ piece ∈ hardPieces, piece.lexeme ∈ piece.token.forms := by decide
  have hpoint : (Token.float "1.").Writable :=
    ⟨['1'], [], rfl, by decide, by simp [Digit, Char.le_def], List.forall_mem_nil _⟩
  have hdigit : (Token.int "2").Writable := ⟨by decide, by simp [Digit, Char.le_def]⟩
  have hname : (Token.identifier "Ñ_").Writable := by
    refine ⟨⟨.inr (.inr rfl), ?_⟩, ?_⟩
    · exact fun d hd => isNameRest_iff.mp (List.all_eq_true.mp rfl d hd)
    · intro word
      cases word <;> decide
  have hwritable : ∀ piece ∈ hardPieces, piece.token.Writable := by
    simp only [hardPieces, List.forall_mem_cons]
    exact ⟨trivial, trivial, trivial, hpoint, hdigit, trivial, trivial, hname, List.forall_mem_nil _⟩
  intro piece hpiece
  have hgap := List.all_eq_true.mp (List.all_eq_true.mp hgaps piece hpiece)
  exact ⟨fun c hc => isBlank_iff.mp (hgap c hc), hwritable piece hpiece, hforms piece hpiece⟩

theorem hardPieces_read_back :
    (∀ piece ∈ hardPieces, piece.Written) ∧ (∀ piece ∈ hardPieces.tail, piece.gap ≠ []) ∧
      ∃ tokens, tokenize "=\t=> \"\\\"\n\\\\\" \r1.\x0c2 ⁋ END Ñ_ " = .ok tokens ∧
        tokens.map Located.token = hardPieces.map Piece.token ++ [.eof] ∧
        Tiling [] "=\t=> \"\\\"\n\\\\\" \r1.\x0c2 ⁋ END Ñ_ ".toList tokens hardPieces [' '] := by
  have hapart : ∀ piece ∈ hardPieces.tail, piece.gap ≠ [] := by decide
  have hlast : ∀ c ∈ [' '], Blank c := by
    intro c hc
    exact List.mem_singleton.mp hc ▸ List.mem_cons_self
  refine ⟨hardPieces_written, hapart, ?_⟩
  exact written_tokens_read_back hardPieces [' '] hardPieces_written hapart hlast

end LineScript
