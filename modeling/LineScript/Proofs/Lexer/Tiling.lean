import LineScript.Proofs.Lexer.LongestMatch

/-!
# Tokens tile the text

Nothing of a text is lost between its tokens, and every token says where it stands. A text that can
be split into tokens is made of the lexemes of the tokens, in order, with blanks between them, and
the place of a token is what one finds by counting the characters before its lexeme.

  * `Position.after before` is the place after the characters `before`: how many they are, how many
    line feeds are among them, and how many come after the last of these.
  * `Lexicon.Spells token text`: the characters `text` are a lexeme of the token.
  * `Piece` is a token with its lexeme and the gap before it; `Tiling` says that pieces make up a
    text and that the tokens are theirs.
  * `Lexicon.Offends flaw text`: the lexeme that has the flaw stands at the beginning of `text`.

**Key idea.** Only the characters before a lexeme decide its place, and only those before an
offending lexeme decide what has been read. So the text may be cut off there: the lexemes before it
are still the longest ones.
-/

namespace LineScript

/-! ### Places by counting -/

namespace Position

/-- The place after the characters `before`, counted from the beginning of the text. -/
def after (before : List Char) : Position :=
  ⟨before.length, before.count '\n', (before.reverse.takeWhile (· ≠ '\n')).length⟩

/-- The place `q` is not on an earlier line than `p`, and not in an earlier column of the same
line. -/
def NotBefore (p q : Position) : Prop :=
  p.line < q.line ∨ (p.line = q.line ∧ p.column ≤ q.column)

theorem advance_after (before : List Char) (c : Char) :
    (after before).advance c = after (before ++ [c]) := by
  unfold advance
  split
  · next hnewline =>
    subst hnewline
    simp [after]
  · next hother =>
    simp [after, hother]

theorem advanceAll_after (before text : List Char) :
    (after before).advanceAll text = after (before ++ text) := by
  induction text generalizing before with
  | nil => rw [advanceAll_nil, List.append_nil]
  | cons c text ih => rw [advanceAll_cons, advance_after, ih, ← List.append_cons]

theorem NotBefore.trans {p q r : Position} (h : p.NotBefore q) (h' : q.NotBefore r) :
    p.NotBefore r := by
  unfold NotBefore at *
  omega

theorem notBefore_advance (p : Position) (c : Char) : p.NotBefore (p.advance c) := by
  unfold NotBefore advance
  split
  · exact .inl (Nat.lt_succ_self _)
  · exact .inr ⟨rfl, Nat.le_succ _⟩

theorem notBefore_after (before text : List Char) :
    (after before).NotBefore (after (before ++ text)) := by
  induction text generalizing before with
  | nil =>
    rw [List.append_nil]
    exact .inr ⟨rfl, Nat.le_refl _⟩
  | cons c text ih =>
    have hstep := notBefore_advance (after before) c
    rw [advance_after] at hstep
    rw [List.append_cons]
    exact hstep.trans (ih _)

end Position

/-! ### Pieces of a text -/

namespace Lexicon

/-- The characters are a lexeme of the token. -/
inductive Spells : Token → List Char → Prop
  /-- A lexeme of the token table. -/
  | plain {token : Token} {text : List Char} (h : Reading text (.ok token)) : Spells token text
  /-- A string between its quotes. -/
  | string {value text : List Char} (h : Quoted value text) :
    Spells (.str (String.ofList value)) ('"' :: (text ++ ['"']))

theorem Spells.ne_nil {token : Token} {text : List Char} (h : Spells token text) : text ≠ [] := by
  cases h with
  | plain h =>
    obtain ⟨c, cs, rfl⟩ := h.exists_cons
    exact List.cons_ne_nil c cs
  | string => exact List.cons_ne_nil _ _

theorem Spells.ne_eof {token : Token} {text : List Char} (h : Spells token text) :
    token ≠ .eof := by
  rintro rfl
  cases h with
  | plain h => cases h

/-- The lexeme with the flaw stands at the beginning of the text. -/
inductive Offends : Flaw → List Char → Prop
  /-- A character with which no lexeme starts. -/
  | character {c : Char} {cs : List Char} (hblank : ¬ Blank c) (hquote : c ≠ '"')
    (hnone : ∀ text rest reading, Reading text reading → text ++ rest ≠ c :: cs) :
    Offends (.illegalCharacter c) (c :: cs)
  /-- A run of operator characters that is no operator. -/
  | run {text rest : List Char} {flaw : Flaw} (hlongest : Longest text rest)
    (hreading : Reading text (.error flaw)) : Offends flaw (text ++ rest)
  /-- A quote that is not closed. -/
  | quote {cs : List Char}
    (hnone : ∀ value text rest, Quoted value text → text ++ '"' :: rest ≠ cs) :
    Offends .malformedString ('"' :: cs)

theorem Offends.ne_nil {flaw : Flaw} {text : List Char} (h : Offends flaw text) : text ≠ [] := by
  cases h with
  | character => exact List.cons_ne_nil _ _
  | run hlongest hreading =>
    obtain ⟨c, cs, rfl⟩ := hreading.exists_cons
    exact List.cons_ne_nil _ _
  | quote => exact List.cons_ne_nil _ _

end Lexicon

open Lexicon

/-- A token, its lexeme and the gap before it. -/
structure Piece where
  /-- What stands between this lexeme and the one before it. -/
  gap : List Char
  /-- The characters of the token. -/
  lexeme : List Char
  /-- The token. -/
  token : Token

namespace Piece

/-- The characters of a piece. -/
def text (piece : Piece) : List Char :=
  piece.gap ++ piece.lexeme

/-- The tokens of pieces that follow the characters `before`, each at the place after all that
stands before its lexeme. -/
def tokensAfter (before : List Char) : List Piece → List Located
  | [] => []
  | piece :: pieces =>
    ⟨piece.token, .after (before ++ piece.gap)⟩ :: tokensAfter (before ++ piece.text) pieces

/-- The gap is blank, and the lexeme is one of the token. -/
structure Sound (piece : Piece) : Prop where
  /-- Between lexemes there are blanks only. -/
  gap : ∀ c ∈ piece.gap, Blank c
  /-- The lexeme is spelled like the token. -/
  lexeme : Spells piece.token piece.lexeme

end Piece

/-- The text, which follows the characters `before`, is made of the pieces and a last gap, and the
tokens are those of the pieces and the end of input. -/
structure Tiling (before text : List Char) (tokens : List Located) (pieces : List Piece)
    (last : List Char) : Prop where
  /-- The pieces and the last gap are the whole text. -/
  covers : text = pieces.flatMap Piece.text ++ last
  /-- Each piece is a blank gap and a lexeme. -/
  sound : ∀ piece ∈ pieces, piece.Sound
  /-- The last gap is blank. -/
  blankEnd : ∀ c ∈ last, Blank c
  /-- The tokens stand where their lexemes start, the end of input after the whole text. -/
  located : tokens = Piece.tokensAfter before pieces ++ [⟨.eof, .after (before ++ text)⟩]

namespace Tiling

variable {before text last : List Char} {tokens : List Located} {pieces : List Piece}

theorem nil (before : List Char) : Tiling before [] [⟨.eof, .after before⟩] [] [] :=
  ⟨rfl, nofun, nofun, by rw [List.append_nil]; rfl⟩

/-- A blank before the text belongs to its first gap. -/
theorem blank {c : Char} (hblank : Blank c) (h : Tiling (before ++ [c]) text tokens pieces last) :
    ∃ pieces last, Tiling before (c :: text) tokens pieces last := by
  obtain ⟨hcovers, hpieces, hlast, htokens⟩ := h
  rw [← List.append_cons] at htokens
  cases pieces with
  | nil =>
    refine ⟨[], c :: last, ?_, nofun, ?_, htokens⟩
    · rw [hcovers]
      rfl
    · exact List.forall_mem_cons.mpr ⟨hblank, hlast⟩
  | cons piece pieces =>
    obtain ⟨hpiece, hpieces⟩ := List.forall_mem_cons.mp hpieces
    refine ⟨⟨c :: piece.gap, piece.lexeme, piece.token⟩ :: pieces, last, ?_, ?_, hlast, ?_⟩
    · rw [hcovers]
      rfl
    · refine List.forall_mem_cons.mpr ⟨⟨?_, hpiece.lexeme⟩, hpieces⟩
      exact List.forall_mem_cons.mpr ⟨hblank, hpiece.gap⟩
    · rw [htokens]
      simp only [Piece.tokensAfter, Piece.text, List.cons_append, List.append_assoc,
        List.nil_append]

/-- A lexeme before the text is a piece of its own. -/
theorem lexeme {token : Token} {lexeme : List Char} (hspells : Spells token lexeme)
    (h : Tiling (before ++ lexeme) text tokens pieces last) :
    Tiling before (lexeme ++ text) (⟨token, .after before⟩ :: tokens)
      (⟨[], lexeme, token⟩ :: pieces) last := by
  obtain ⟨hcovers, hpieces, hlast, htokens⟩ := h
  refine ⟨?_, List.forall_mem_cons.mpr ⟨⟨nofun, hspells⟩, hpieces⟩, hlast, ?_⟩
  · rw [hcovers, List.flatMap_cons, List.append_assoc]
    rfl
  · rw [htokens, List.append_assoc, Piece.tokensAfter, List.append_nil]
    rfl

/-- A token of pieces that follow `before` stands after `before`. -/
theorem position_of_mem {t : Located} (h : t ∈ Piece.tokensAfter before pieces) :
    ∃ more, t.position = .after (before ++ more) := by
  induction pieces generalizing before with
  | nil => cases h
  | cons piece pieces ih =>
    rcases List.mem_cons.mp h with rfl | h
    · exact ⟨piece.gap, rfl⟩
    · obtain ⟨more, hmore⟩ := ih h
      exact ⟨piece.text ++ more, by rw [hmore, List.append_assoc]⟩

theorem ne_eof_of_mem (hpieces : ∀ piece ∈ pieces, piece.Sound) {t : Located}
    (h : t ∈ Piece.tokensAfter before pieces) : t.token ≠ .eof := by
  induction pieces generalizing before with
  | nil => cases h
  | cons piece pieces ih =>
    obtain ⟨hpiece, hpieces⟩ := List.forall_mem_cons.mp hpieces
    rcases List.mem_cons.mp h with rfl | h
    · exact hpiece.lexeme.ne_eof
    · exact ih hpieces h

/-- The end of input comes last and nowhere else. -/
theorem endsOnce (h : Tiling before text tokens pieces last) :
    tokens.getLast? = some ⟨.eof, .after (before ++ text)⟩ ∧
      ∀ t ∈ tokens.dropLast, t.token ≠ .eof := by
  rw [h.located, List.dropLast_concat]
  exact ⟨List.getLast?_concat, fun t ht => ne_eof_of_mem h.sound ht⟩

/-- Every token starts after the ones before it, since lexemes are not empty. -/
theorem ordered (h : Tiling before text tokens pieces last) :
    tokens.Pairwise fun s t =>
      s.position.offset < t.position.offset ∧ s.position.NotBefore t.position := by
  obtain ⟨hcovers, hpieces, -, rfl⟩ := h
  subst hcovers
  induction pieces generalizing before with
  | nil => exact List.pairwise_singleton _ _
  | cons piece pieces ih =>
    obtain ⟨hpiece, hpieces⟩ := List.forall_mem_cons.mp hpieces
    have hrest := @ih (before ++ piece.text) hpieces
    rw [Piece.tokensAfter, List.cons_append, List.pairwise_cons, List.flatMap_cons,
      List.append_assoc, ← List.append_assoc before]
    refine ⟨?_, hrest⟩
    intro t ht
    -- what follows stands after the gap, the lexeme and possibly more
    obtain ⟨more, hmore⟩ : ∃ more, t.position = .after (before ++ piece.text ++ more) := by
      rcases List.mem_append.mp ht with ht | ht
      · exact position_of_mem ht
      · exact ⟨_, by rw [List.mem_singleton.mp ht]⟩
    have hsome : 0 < piece.lexeme.length := List.length_pos_iff.mpr hpiece.lexeme.ne_nil
    rw [hmore, Piece.text, ← List.append_assoc before, List.append_assoc]
    refine ⟨?_, Position.notBefore_after _ _⟩
    simp only [Position.after, List.length_append]
    omega

end Tiling

/-! ### Texts that are split -/

namespace Lexicon

/-- A lexeme that is the longest is still the longest if the text is cut off after it. -/
theorem Longest.of_append {text rest more : List Char} (h : Longest text (rest ++ more)) :
    Longest text rest := by
  refine ⟨h.lexeme, ?_⟩
  intro text' rest' reading hreading happend
  refine h.longest text' (rest' ++ more) reading hreading ?_
  rw [← List.append_assoc, happend, List.append_assoc]

/-- The tokens of a text tile it. -/
theorem Scans.tiling {p : Position} {text : List Char} {tokens : List Located}
    (h : Scans p text (.ok tokens)) (before : List Char) (hp : p = .after before) :
    ∃ pieces last, Tiling before text tokens pieces last := by
  generalize hresult : Except.ok tokens = result at h
  induction h generalizing before tokens with
  | eof =>
    cases hresult
    subst hp
    exact ⟨[], [], .nil before⟩
  | @blank p c cs result hblank _ ih =>
    obtain ⟨pieces, last, htiling⟩ := ih _ (by rw [hp, Position.advance_after]) hresult
    exact htiling.blank hblank
  | @string p value text rest result hquoted _ ih =>
    cases result with
    | error => cases hresult
    | ok rest' =>
      cases hresult
      obtain ⟨pieces, last, htiling⟩ := ih _ (by rw [hp, Position.advanceAll_after]) rfl
      have hpiece := htiling.lexeme (.string hquoted)
      rw [List.cons_append, List.append_assoc, ← hp] at hpiece
      exact ⟨_, _, hpiece⟩
  | @lexeme p text rest token result _ hreading _ ih =>
    cases result with
    | error => cases hresult
    | ok rest' =>
      cases hresult
      obtain ⟨pieces, last, htiling⟩ := ih _ (by rw [hp, Position.advanceAll_after]) rfl
      have hpiece := htiling.lexeme (.plain hreading)
      rw [← hp] at hpiece
      exact ⟨_, _, hpiece⟩
  | unclosed => cases hresult
  | malformed => cases hresult
  | illegal => cases hresult

/-! ### Texts that are refused -/

/-- What stands before an offending lexeme can be split on its own. -/
theorem Scans.cutOff {p : Position} {text : List Char} {e : LexError} (h : Scans p text (.error e))
    (before : List Char) (hp : p = .after before) :
    ∃ read rest tokens, text = read ++ rest ∧ e.position = .after (before ++ read) ∧
      Offends e.flaw rest ∧ Scans p read (.ok tokens) := by
  -- at the offending lexeme itself nothing has been read
  have hhere {q : Position} {before text : List Char} {flaw : Flaw} (hq : q = .after before)
      (hoffends : Offends flaw text) :
      ∃ read rest tokens, text = read ++ rest ∧ q = .after (before ++ read) ∧
        Offends flaw rest ∧ Scans q read (.ok tokens) :=
    ⟨[], text, _, rfl, by rw [hq, List.append_nil], hoffends, .eof⟩
  generalize hresult : Except.error e = result at h
  induction h generalizing before e with
  | eof => cases hresult
  | @blank p c cs result hblank _ ih =>
    obtain ⟨read, rest, tokens, rfl, hplace, hoffends, hread⟩ :=
      ih _ (by rw [hp, Position.advance_after]) hresult
    refine ⟨c :: read, rest, tokens, rfl, ?_, hoffends, .blank hblank hread⟩
    rw [hplace, ← List.append_cons]
  | @string p value text rest result hquoted _ ih =>
    cases result with
    | ok => cases hresult
    | error =>
      cases hresult
      obtain ⟨read, rest', tokens, rfl, hplace, hoffends, hread⟩ :=
        ih _ (by rw [hp, Position.advanceAll_after]) rfl
      refine ⟨'"' :: (text ++ '"' :: read), rest', _, ?_, ?_, hoffends, .string hquoted hread⟩
      · rw [List.cons_append, List.append_assoc, List.cons_append]
      · rw [hplace]
        simp
  | @lexeme p text rest token result hlongest hreading _ ih =>
    cases result with
    | ok => cases hresult
    | error =>
      cases hresult
      obtain ⟨read, rest', tokens, rfl, hplace, hoffends, hread⟩ :=
        ih _ (by rw [hp, Position.advanceAll_after]) rfl
      refine ⟨text ++ read, rest', _, ?_, ?_, hoffends, .lexeme hlongest.of_append hreading hread⟩
      · rw [List.append_assoc]
      · rw [hplace, List.append_assoc]
  | unclosed hnone =>
    cases hresult
    exact hhere hp (.quote hnone)
  | malformed hlongest hreading =>
    cases hresult
    exact hhere hp (.run hlongest hreading)
  | illegal hblank hquote hnone =>
    cases hresult
    exact hhere hp (.character hblank hquote hnone)

end Lexicon

/-- **Lossless tiling and exact positions.** A text that can be split into tokens is made of their
lexemes with blanks between them, every token stands at the place that one finds by counting what
comes before its lexeme, and the end of input comes once, after the whole text; so the tokens stand
in order. A text that is refused is refused at such a place too: what comes before the offending
lexeme can be split on its own, and is tiled in the same way. -/
theorem tokenize_tiles_source (source : String) :
    (∀ tokens, tokenize source = .ok tokens →
      (∃ pieces last, Tiling [] source.toList tokens pieces last) ∧
      tokens.getLast? = some ⟨.eof, .after source.toList⟩ ∧
      (∀ t ∈ tokens.dropLast, t.token ≠ .eof) ∧
      tokens.Pairwise fun s t =>
        s.position.offset < t.position.offset ∧ s.position.NotBefore t.position) ∧
    ∀ e, tokenize source = .error e →
      ∃ k < source.length, e.position = .after (source.toList.take k) ∧
        Offends e.flaw (source.toList.drop k) ∧
        ∃ tokens pieces last, tokenize (String.ofList (source.toList.take k)) = .ok tokens ∧
          Tiling [] (source.toList.take k) tokens pieces last := by
  refine ⟨?_, ?_⟩
  · intro tokens htokens
    have hscans : Scans .start source.toList (.ok tokens) := htokens ▸ scans_tokensFrom _ _
    obtain ⟨pieces, last, htiling⟩ := hscans.tiling [] rfl
    obtain ⟨hlast, hinit⟩ := htiling.endsOnce
    exact ⟨⟨pieces, last, htiling⟩, hlast, hinit, htiling.ordered⟩
  · intro e he
    have hscans : Scans .start source.toList (.error e) := he ▸ scans_tokensFrom _ _
    obtain ⟨read, rest, tokens, hsplit, hplace, hoffends, hread⟩ :=
      hscans.cutOff [] rfl
    obtain ⟨pieces, last, htiling⟩ := hread.tiling [] rfl
    have htokens : tokenize (String.ofList read) = .ok tokens := by
      unfold tokenize
      rw [String.toList_ofList]
      exact tokensFrom_of_scans hread
    have hshorter : read.length < source.length := by
      have hrest := List.length_pos_iff.mpr hoffends.ne_nil
      rw [← String.length_toList, hsplit, List.length_append]
      omega
    refine ⟨read.length, hshorter, ?_⟩
    rw [hsplit, List.take_left, List.drop_left]
    exact ⟨hplace, hoffends, tokens, pieces, last, htokens, htiling⟩

/-- The tokens of a name, a string over two lines, a separator and a number. -/
def stringTokens : List Located :=
  [⟨.identifier "ñ", ⟨0, 0, 0⟩⟩, ⟨.str "a\nb", ⟨2, 0, 2⟩⟩, ⟨.newline, ⟨7, 1, 2⟩⟩,
    ⟨.int "1", ⟨8, 1, 3⟩⟩, ⟨.eof, ⟨10, 1, 5⟩⟩]

/-- The line feed in the string starts a line and the mark `⁋` does not; a run of operator characters
on the second line is refused at its own place, and the line before it is tiled. -/
theorem string_over_lines_tiled :
    (tokenize "ñ \"a\nb\"⁋1 " = .ok stringTokens ∧
      (∃ pieces last, Tiling [] "ñ \"a\nb\"⁋1 ".toList stringTokens pieces last) ∧
      stringTokens.Pairwise fun s t =>
        s.position.offset < t.position.offset ∧ s.position.NotBefore t.position) ∧
    tokenize "ñ \n=>= 1" = .error ⟨.malformedOperator "=>=", ⟨3, 1, 0⟩⟩ ∧
      ∃ k < 8, Offends (.malformedOperator "=>=") ("ñ \n=>= 1".toList.drop k) ∧
        ∃ tokens pieces last, tokenize (String.ofList ("ñ \n=>= 1".toList.take k)) = .ok tokens ∧
          Tiling [] ("ñ \n=>= 1".toList.take k) tokens pieces last := by
  have hsplit : tokenize "ñ \"a\nb\"⁋1 " = .ok stringTokens := by decide
  have hrefused : tokenize "ñ \n=>= 1" = .error ⟨.malformedOperator "=>=", ⟨3, 1, 0⟩⟩ := by decide
  obtain ⟨htiled, -, -, hordered⟩ := (tokenize_tiles_source "ñ \"a\nb\"⁋1 ").1 _ hsplit
  obtain ⟨k, hk, -, hoffends, hread⟩ := (tokenize_tiles_source "ñ \n=>= 1").2 _ hrefused
  exact ⟨⟨hsplit, htiled, hordered⟩, hrefused, k, hk, hoffends, hread⟩

end LineScript
