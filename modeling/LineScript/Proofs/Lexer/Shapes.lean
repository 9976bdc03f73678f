import LineScript.Token.Lexer
import LineScript.Number

/-!
# The tokens of a text

What the lexer makes of a text is a list of tokens of known shapes, and the last of them, and no
other, is the end of input.

  * `IsLiteral`: digits, possibly with a point and further digits. Signs and exponents are no part
    of a number token.
  * `IsIdentifier`: a name that is no keyword.
  * `Token.Lexical`: the shapes of tokens. There are no malformed ones.
-/

namespace LineScript

open Lexer

/-- A number as the lexer finds it: no sign, no exponent. -/
inductive IsLiteral : String → Prop
  /-- Digits. -/
  | whole {digits : List Char} (hsome : digits ≠ []) (hdigits : digits.all Char.isDigit) :
    IsLiteral (String.ofList digits)
  /-- Digits, a point, and possibly more digits. -/
  | point {digits fraction : List Char} (hsome : digits ≠ []) (hdigits : digits.all Char.isDigit)
    (hfraction : fraction.all Char.isDigit) :
    IsLiteral (String.ofList (digits ++ '.' :: fraction))

/-- A name that is no keyword. -/
structure IsIdentifier (name : String) : Prop where
  /-- The characters are those of a name. -/
  shape : ∃ c cs, name = String.ofList (c :: cs) ∧ isNameStart c ∧ cs.all isNameRest
  /-- The name is not reserved. -/
  free : Keyword.ofSpelling? name = none

/-- The shapes of tokens. -/
def Token.Lexical : Token → Prop
  | int text | float text => IsLiteral text
  | identifier name => IsIdentifier name
  | malformed _ => False
  | _ => True

/-- A token that a lexeme can be: of one of the shapes, and not the end of input. -/
structure Token.IsLexeme (token : Token) : Prop where
  /-- The token has one of the shapes. -/
  lexical : token.Lexical
  /-- The end of input is no lexeme. -/
  ne_eof : token ≠ .eof

theorem isLexeme_number {c : Char} (cs : List Char) (hc : c.isDigit) :
    (number c cs).1.IsLexeme := by
  have hwhole : (c :: cs.takeWhile Char.isDigit).all Char.isDigit := by
    simp [hc]
  unfold number
  dsimp only
  split
  · exact ⟨.point (List.cons_ne_nil _ _) hwhole List.all_takeWhile, nofun⟩
  · exact ⟨.whole (List.cons_ne_nil _ _) hwhole, nofun⟩

theorem isLexeme_name {c : Char} (cs : List Char) (hc : isNameStart c) :
    (name c cs).1.IsLexeme := by
  unfold name
  dsimp only
  split
  · exact ⟨trivial, nofun⟩
  · next hfree =>
    exact ⟨⟨⟨c, cs.takeWhile isNameRest, rfl, hc, List.all_takeWhile⟩, hfree⟩, nofun⟩

theorem isLexeme_operator {c : Char} {cs : List Char} {token : Token} {k : Nat}
    (h : operator c cs = .ok (token, k)) : token.IsLexeme := by
  unfold operator at h
  dsimp only at h
  split at h
  · cases h
    exact ⟨trivial, nofun⟩
  · cases h

theorem isLexeme_lexeme {c : Char} {cs : List Char} {token : Token} {k : Nat}
    (h : lexeme c cs = .ok (token, k)) : token.IsLexeme := by
  -- numbers, strings, names, operators, separators and single marks, in this order
  unfold lexeme at h
  split at h
  · next hdigit =>
    have hnumber := isLexeme_number cs hdigit
    rw [Except.ok.inj h] at hnumber
    exact hnumber
  split at h
  · split at h
    · cases h
      exact ⟨trivial, nofun⟩
    · cases h
  split at h
  · next hstart =>
    have hname := isLexeme_name cs hstart
    rw [Except.ok.inj h] at hname
    exact hname
  split at h
  · exact isLexeme_operator h
  split at h
  · cases h
    exact ⟨trivial, nofun⟩
  split at h
  · cases h
    exact ⟨trivial, nofun⟩
  · cases h

/-- The tokens of a text: lexemes, and the end of input after them. -/
theorem tokensFrom_shape {p : Position} {skip : Nat} {cs : List Char} {tokens : List Located}
    (h : tokensFrom p skip cs = .ok tokens) :
    ∃ init q, tokens = init ++ [⟨.eof, q⟩] ∧ ∀ t ∈ init, t.token.IsLexeme := by
  -- characters of a token that was found already are skipped
  induction cs generalizing p skip tokens with
  | nil =>
    have hend : tokens = [⟨.eof, p⟩] := by
      cases skip <;> exact (Except.ok.inj h).symm
    exact ⟨[], p, hend, nofun⟩
  | cons c cs ih =>
    cases skip with
    | succ skip => exact ih h
    | zero =>
      unfold tokensFrom at h
      split at h
      · exact ih h
      · split at h
        · next token k hlexeme =>
          cases hrest : tokensFrom (p.advance c) k cs with
          | error e =>
            rw [hrest] at h
            cases h
          | ok rest =>
            rw [hrest] at h
            cases h
            obtain ⟨init, q, rfl, hinit⟩ := ih hrest
            refine ⟨⟨token, p⟩ :: init, q, rfl, ?_⟩
            intro t ht
            obtain rfl | ht := List.mem_cons.mp ht
            · exact isLexeme_lexeme hlexeme
            · exact hinit t ht
        · cases h

theorem tokenize_shape {source : String} {tokens : List Located}
    (h : tokenize source = .ok tokens) :
    ∃ init q, tokens = init ++ [⟨.eof, q⟩] ∧ ∀ t ∈ init, t.token.IsLexeme :=
  tokensFrom_shape h

/-! ### Numbers can be read -/

theorem Number.sign_of_digits {digits cs : List Char} (hsome : digits ≠ [])
    (hdigits : digits.all Char.isDigit) : Number.sign (digits ++ cs) = (false, digits ++ cs) := by
  obtain ⟨c, digits, rfl⟩ := List.exists_cons_of_ne_nil hsome
  have hc : c.isDigit := (List.all_eq_true.mp hdigits) c List.mem_cons_self
  unfold Number.sign
  split
  · next heq =>
    rw [(List.cons.inj heq).1] at hc
    exact absurd hc (by decide)
  · next heq =>
    rw [(List.cons.inj heq).1] at hc
    exact absurd hc (by decide)
  · rfl

theorem Number.takeWhile_digits {digits : List Char} (hdigits : digits.all Char.isDigit) :
    digits.takeWhile Char.isDigit = digits ∧ digits.dropWhile Char.isDigit = [] := by
  have htake : (digits ++ []).takeWhile Char.isDigit = digits ++ [].takeWhile Char.isDigit :=
    List.takeWhile_append_of_pos (List.all_eq_true.mp hdigits)
  have hdrop : (digits ++ []).dropWhile Char.isDigit = [].dropWhile Char.isDigit :=
    List.dropWhile_append_of_pos (List.all_eq_true.mp hdigits)
  simpa using And.intro htake hdrop

/-- What the lexer finds as a number has a value. -/
theorem IsLiteral.isSome_read? {text : String} (h : IsLiteral text) :
    (Number.read? text).isSome := by
  have hread : ∀ {digits rest : List Char}, digits ≠ [] → digits.all Char.isDigit →
      (Number.decimal? (digits ++ rest)).isSome →
      (Number.read? (String.ofList (digits ++ rest))).isSome := by
    intro digits rest hsome hdigits hdecimal
    obtain ⟨value, hvalue⟩ := Option.isSome_iff_exists.mp hdecimal
    simp [Number.read?, Number.sign_of_digits hsome hdigits, hvalue]
  cases h with
  | @whole digits hsome hdigits =>
    obtain ⟨htake, hdrop⟩ := Number.takeWhile_digits hdigits
    rw [← List.append_nil digits]
    refine hread hsome hdigits ?_
    simp [Number.decimal?, htake, hdrop, hsome, Number.exponent?]
  | @point digits fraction hsome hdigits hfraction =>
    obtain ⟨htake, hdrop⟩ := Number.takeWhile_digits hdigits
    obtain ⟨htake', hdrop'⟩ := Number.takeWhile_digits hfraction
    refine hread hsome hdigits ?_
    have hall := List.all_eq_true.mp hdigits
    have hpoint : ('.').isDigit = false := by decide
    simp [Number.decimal?, List.takeWhile_append_of_pos hall, List.dropWhile_append_of_pos hall,
      hpoint, htake', hdrop', hsome, Number.exponent?]

end LineScript
