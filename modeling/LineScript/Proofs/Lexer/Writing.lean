import LineScript.Proofs.Grammar.Rendering
import LineScript.Proofs.Lexer.LongestMatch
import LineScript.Proofs.Lexer.Shapes

/-!
# Texts put together from pieces

A text that is put together from pieces is read piece by piece, if no piece goes on with the one
after it. A name goes on with letters and digits, a number with digits and a point, an operator with
the characters that join into runs. Blanks, strings and marks go on with nothing.

  * `Meets stop text`: the text is empty or its first character satisfies `stop`.
  * `Writes stop text words`: before whatever meets `stop`, the text is read as these words.
  * `Writes.append` puts two pieces together.
  * `Delimiter`: a character that no piece goes on with.
-/

namespace LineScript

open Lexer Lexicon

/-! ### Pieces -/

/-- The text ends here or goes on with a character of the class. -/
def Meets (stop : Char → Prop) (text : String) : Prop :=
  ∀ c ∈ text.toList.head?, stop c

/-- Before anything that meets `stop`, the text is read as the words. -/
def Writes (stop : Char → Prop) (text : String) (words : List Word) : Prop :=
  ∀ p rest, Meets stop rest → ∃ q ts, ts.map Located.word = words ∧
    tokensFrom p 0 (text ++ rest).toList = (tokensFrom q 0 rest.toList).map (ts ++ ·)

/-- Anything may follow. -/
abbrev AnyChar : Char → Prop := fun _ => True

/-- No name, number or operator goes on with the character. -/
structure Delimiter (c : Char) : Prop where
  /-- No name and no number goes on with it. -/
  name : ¬ NameRest c
  /-- No number goes on with it. -/
  point : c ≠ '.'
  /-- No operator goes on with it. -/
  operator : ¬ Joining c

section pieces

variable {stop stop' : Char → Prop} {text text' : String} {ws ws' : List Word}

theorem meets_empty : Meets stop "" := nofun

theorem meets_any : Meets AnyChar text :=
  fun _ _ => trivial

/-- What a text that is not empty meets depends on its first character. -/
theorem meets_append (h : Meets stop text) (h' : Meets stop text') : Meets stop (text ++ text') := by
  intro c hc
  rw [String.toList_append, List.head?_append] at hc
  rcases htext : text.toList.head? with _ | d
  · rw [htext] at hc
    exact h' c hc
  · rw [htext] at hc
    exact h c (htext.trans hc)

theorem Writes.mono (h : Writes stop text ws) (himp : ∀ c, stop' c → stop c) :
    Writes stop' text ws :=
  fun p rest hrest => h p rest fun c hc => himp c (hrest c hc)

theorem writes_empty : Writes stop "" [] := by
  intro p rest _
  refine ⟨p, [], rfl, ?_⟩
  rw [String.empty_append]
  show _ = Except.map id _
  rw [Except.map_id]
  rfl

/-- Two pieces, of which the first does not go on with the second. -/
theorem Writes.append (h : Writes stop text ws) (h' : Writes stop' text' ws')
    (hmeets : ∀ rest, Meets stop' rest → Meets stop (text' ++ rest)) :
    Writes stop' (text ++ text') (ws ++ ws') := by
  intro p rest hrest
  obtain ⟨q, ts, hts, heq⟩ := h p (text' ++ rest) (hmeets rest hrest)
  obtain ⟨r, ts', hts', heq'⟩ := h' q rest hrest
  refine ⟨r, ts ++ ts', ?_, ?_⟩
  · rw [List.map_append, hts, hts']
  · rw [String.append_assoc, heq, heq']
    cases tokensFrom r 0 rest.toList with
    | ok tokens => simp [Except.map]
    | error e => rfl

/-- The first piece goes on with nothing. -/
theorem Writes.then (h : Writes AnyChar text ws) (h' : Writes stop' text' ws') :
    Writes stop' (text ++ text') (ws ++ ws') :=
  h.append h' fun _ _ => meets_any

/-- The second piece begins with a character that the first does not go on with. -/
theorem Writes.before (h : Writes stop text ws) (h' : Writes stop' text' ws') {c : Char}
    {cs : List Char} (htext' : text'.toList = c :: cs) (hc : stop c) :
    Writes stop' (text ++ text') (ws ++ ws') := by
  apply h.append h'
  intro rest _ d hd
  rw [String.toList_append, htext'] at hd
  cases hd
  exact hc

/-- A text that is read whole. -/
theorem Writes.tokenize (h : Writes stop text ws) :
    ∃ q ts, ts.map Located.word = ws ∧ tokenize text = .ok (ts ++ [⟨.eof, q⟩]) := by
  obtain ⟨q, ts, hts, heq⟩ := h .start "" meets_empty
  refine ⟨q, ts, hts, ?_⟩
  rw [String.append_empty] at heq
  exact heq

end pieces

/-! ### Lexemes -/

/-- A lexeme of known length becomes one token. -/
theorem writes_lexeme {stop : Char → Prop} {c : Char} {cs : List Char} (token : Token) {w : Word}
    (hblank : ¬ Blank c) (hword : ∀ p, Located.word ⟨token, p⟩ = w)
    (hlexeme : ∀ rest : String, Meets stop rest →
      lexeme c (cs ++ rest.toList) = .ok (token, cs.length)) :
    Writes stop (String.ofList (c :: cs)) [w] := by
  intro p rest hrest
  refine ⟨p.advanceAll (c :: cs), [⟨token, p⟩], ?_, ?_⟩
  · rw [List.map_singleton, hword]
  · rw [String.toList_append, String.toList_ofList]
    exact tokensFrom_lexeme hblank (hlexeme rest hrest)

/-- The longest stretch of a class ends where the text goes on with something else. -/
theorem takeWhile_of_meets {q : Char → Bool} {cs : List Char} {rest : String}
    (hcs : ∀ d ∈ cs, q d = true) (hrest : Meets (fun c => q c = false) rest) :
    (cs ++ rest.toList).takeWhile q = cs := by
  rw [List.takeWhile_append_of_pos hcs]
  cases htext : rest.toList with
  | nil => simp
  | cons c text =>
    have hc : q c = false := hrest c (by rw [htext]; rfl)
    simp [hc]

theorem writes_blank : Writes AnyChar " " [] := by
  intro p rest _
  refine ⟨p.advance ' ', [], rfl, ?_⟩
  rw [String.toList_append]
  show tokensFrom p 0 (' ' :: rest.toList) = Except.map id _
  rw [Except.map_id, tokensFrom_blank (by unfold Blank; decide)]
  rfl

/-- A mark never joins with what follows it. -/
theorem writes_mark {mark : Symbol} (h : mark ∈ marks) :
    Writes AnyChar mark.spelling [.symbol mark] := by
  simp only [marks, List.mem_cons, List.not_mem_nil, or_false] at h
  rcases h with rfl | rfl | rfl | rfl | rfl | rfl | rfl | rfl | rfl | rfl <;>
    exact writes_lexeme (.symbol _) (by unfold Blank; decide) (fun _ => rfl) fun _ _ => rfl

theorem not_joining_iff {c : Char} : ¬ Joining c ↔ isOperatorChar c = false := by
  rw [← isOperatorChar_iff, Bool.not_eq_true]

theorem not_nameRest_iff {c : Char} : ¬ NameRest c ↔ isNameRest c = false := by
  rw [← isNameRest_iff, Bool.not_eq_true]

theorem not_digit_iff {c : Char} : ¬ Digit c ↔ c.isDigit = false := by
  rw [← isDigit_iff, Bool.not_eq_true]

/-- An operator is a run that ends where the text goes on with another character. -/
theorem writes_operator {mark : Symbol} (h : mark ∈ operators) :
    Writes (fun c => ¬ Joining c) mark.spelling [.symbol mark] := by
  have hrun : Symbol.ofRun? mark.spelling.toList = some mark := ofRun?_eq_some_iff.mpr ⟨h, rfl⟩
  have hjoins : ∀ mark ∈ operators, mark.spelling.toList ≠ [] ∧
      mark.spelling.toList.all isOperatorChar = true := by decide
  obtain ⟨hsome, hall⟩ := hjoins mark h
  obtain ⟨c, cs, htext⟩ := List.exists_cons_of_ne_nil hsome
  rw [htext] at hrun hall
  obtain ⟨hc, hcs⟩ := List.forall_mem_cons.mp (List.all_eq_true.mp hall)
  have hjoining : Joining c := isOperatorChar_iff.mp hc
  rw [← String.ofList_toList (s := mark.spelling), htext]
  apply writes_lexeme (.symbol mark)
  · intro hblank
    simp only [Blank, List.mem_cons, List.not_mem_nil, or_false] at hblank
    rcases hblank with rfl | rfl | rfl | rfl <;> cases hc
  · exact fun _ => rfl
  · intro rest hrest
    have htake : (cs ++ rest.toList).takeWhile isOperatorChar = cs :=
      takeWhile_of_meets hcs fun d hd => not_joining_iff.mp (hrest d hd)
    rw [lexeme_of_joining hjoining, operator]
    simp only [htake, hrun]

/-- Every symbol ends where no character follows that joins into runs. -/
theorem writes_symbol (mark : Symbol) :
    Writes (fun c => ¬ Joining c) mark.spelling [.symbol mark] := by
  by_cases h : mark ∈ operators
  · exact writes_operator h
  · have hmark : mark ∈ marks := by
      revert h
      cases mark <;> decide
    exact (writes_mark hmark).mono fun _ _ => trivial

section names

variable {c : Char} {cs : List Char}

theorem not_blank_of_nameStart (h : NameStart c) : ¬ Blank c := by
  intro hblank
  simp only [Blank, List.mem_cons, List.not_mem_nil, or_false] at hblank
  rw [← isNameStart_iff] at h
  rcases hblank with rfl | rfl | rfl | rfl <;> cases h

/-- A name is read up to the first character that it does not go on with. -/
theorem name_of_meets (hcs : ∀ d ∈ cs, isNameRest d = true) {rest : String}
    (hrest : Meets (fun c => ¬ NameRest c) rest) :
    name c (cs ++ rest.toList) = name c cs := by
  have htake : (cs ++ rest.toList).takeWhile isNameRest = cs :=
    takeWhile_of_meets hcs fun d hd => not_nameRest_iff.mp (hrest d hd)
  have htake' : cs.takeWhile isNameRest = cs := List.takeWhile_eq_self_iff.mpr hcs
  unfold name
  simp only [htake, htake']

theorem writes_nameShape (token : Token) {w : Word} (hc : isNameStart c = true)
    (hcs : ∀ d ∈ cs, isNameRest d = true) (hname : name c cs = (token, cs.length))
    (hword : ∀ p, Located.word ⟨token, p⟩ = w) :
    Writes (fun c => ¬ NameRest c) (String.ofList (c :: cs)) [w] := by
  have hstart : NameStart c := isNameStart_iff.mp hc
  apply writes_lexeme token (not_blank_of_nameStart hstart) hword
  intro rest hrest
  rw [lexeme_of_nameStart hstart, name_of_meets hcs hrest, hname]

end names

theorem writes_keyword (word : Keyword) :
    Writes (fun c => ¬ NameRest c) word.spelling [.keyword word] := by
  cases word <;>
    exact writes_nameShape (.keyword _) rfl (List.all_eq_true.mp (by decide)) rfl fun _ => rfl

theorem writes_name {text : String} (h : IsIdentifier text) :
    Writes (fun c => ¬ NameRest c) text [.name text] := by
  obtain ⟨c, cs, rfl, hc, hcs⟩ := h.shape
  have hcs := List.all_eq_true.mp hcs
  have htake : cs.takeWhile isNameRest = cs := List.takeWhile_eq_self_iff.mpr hcs
  refine writes_nameShape (.identifier (String.ofList (c :: cs))) hc hcs ?_ fun _ => rfl
  unfold name
  simp only [htake, h.free]

/-! ### Numbers and strings -/

theorem not_blank_of_digit {c : Char} (h : Digit c) : ¬ Blank c := by
  intro hblank
  simp only [Blank, List.mem_cons, List.not_mem_nil, or_false] at hblank
  rw [← isDigit_iff] at h
  rcases hblank with rfl | rfl | rfl | rfl <;> cases h

/-- A number is a word by its value. -/
theorem writes_literal {text : String} {x : Float} (h : IsLiteral text)
    (hread : Number.read? text = some x) :
    Writes (fun c => ¬ Digit c ∧ c ≠ '.') text [.number x] := by
  have hword (token : Token) (htoken : token.number? = some x) (p : Position) :
      Located.word ⟨token, p⟩ = .number x := by
    unfold Located.word
    simp only [htoken]
  cases h with
  | @whole digits hsome hdigits =>
    obtain ⟨c, cs, rfl⟩ := List.exists_cons_of_ne_nil hsome
    obtain ⟨hc, hcs⟩ := List.forall_mem_cons.mp (List.all_eq_true.mp hdigits)
    have hdigit : Digit c := isDigit_iff.mp hc
    apply writes_lexeme _ (not_blank_of_digit hdigit) (hword (.int _) hread)
    intro rest hrest
    have htake : (cs ++ rest.toList).takeWhile Char.isDigit = cs :=
      takeWhile_of_meets hcs fun d hd => not_digit_iff.mp (hrest d hd).1
    rw [lexeme_of_digit hdigit, number]
    simp only [htake, List.drop_left]
    split
    · next ds heq => exact absurd rfl (hrest '.' (by rw [heq]; rfl)).2
    · rfl
  | @point digits fraction hsome hdigits hfraction =>
    obtain ⟨c, cs, rfl⟩ := List.exists_cons_of_ne_nil hsome
    obtain ⟨hc, hcs⟩ := List.forall_mem_cons.mp (List.all_eq_true.mp hdigits)
    have hdigit : Digit c := isDigit_iff.mp hc
    have hfraction := List.all_eq_true.mp hfraction
    apply writes_lexeme _ (not_blank_of_digit hdigit) (hword (.float _) hread)
    intro rest hrest
    have hnone : ([] ++ rest.toList).takeWhile Char.isDigit = [] :=
      takeWhile_of_meets (List.forall_mem_nil _) fun d hd => not_digit_iff.mp (hrest d hd).1
    rw [List.nil_append] at hnone
    rw [lexeme_of_digit hdigit, List.append_eq, List.append_assoc, List.cons_append,
      number_of_point c (fun d hd => isDigit_iff.mp (hcs d hd))
        (fun d hd => isDigit_iff.mp (hfraction d hd)), hnone]
    simp
    omega

/-- A character that stands in quotes for itself, with a backslash before it if it has to. -/
def Text.Plain (c : Char) : Prop :=
  escape c = [c] ∨ c = '"' ∨ c = '\\'

instance (c : Char) : Decidable (Text.Plain c) :=
  inferInstanceAs (Decidable (_ ∨ _ ∨ _))

theorem Text.quoted_flatMap {cs : List Char} (h : ∀ c ∈ cs, Plain c) :
    Quoted cs (cs.flatMap escape) := by
  induction cs with
  | nil => exact .nil
  | cons c cs ih =>
    obtain ⟨hc, hcs⟩ := List.forall_mem_cons.mp h
    rw [List.flatMap_cons]
    rcases hc with hc | rfl | rfl
    · rw [hc]
      refine .plain ?_ ?_ (ih hcs)
      · rintro rfl
        cases hc
      · rintro rfl
        cases hc
    · exact .escaped (ih hcs)
    · exact .escaped (ih hcs)

/-- A string ends with its closing quote. -/
theorem writes_quote {s : String} (h : ∀ c ∈ s.toList, Text.Plain c) :
    Writes AnyChar (Text.quote s) [.token (.str s)] := by
  intro p rest _
  refine ⟨p.advanceAll ('"' :: (s.toList.flatMap Text.escape ++ ['"'])), [⟨.str s, p⟩], rfl, ?_⟩
  simp only [Text.quote, String.toList_append, String.toList_ofList, List.cons_append,
    List.append_assoc, List.nil_append]
  rw [tokensFrom_string (Text.quoted_flatMap h), String.ofList_toList]

/-! ### Brackets, and words between blanks -/

theorem writes_lparen : Writes AnyChar "(" [.symbol .lparen] :=
  have hmark : Symbol.lparen ∈ marks := by decide
  writes_mark hmark

theorem writes_rparen : Writes AnyChar ")" [.symbol .rparen] :=
  have hmark : Symbol.rparen ∈ marks := by decide
  writes_mark hmark

theorem writes_lbracket : Writes AnyChar "[" [.symbol .lbracket] :=
  have hmark : Symbol.lbracket ∈ marks := by decide
  writes_mark hmark

theorem writes_rbracket : Writes AnyChar "]" [.symbol .rbracket] :=
  have hmark : Symbol.rbracket ∈ marks := by decide
  writes_mark hmark

theorem delimiter_iff {c : Char} :
    Delimiter c ↔ isNameRest c = false ∧ c ≠ '.' ∧ isOperatorChar c = false := by
  rw [← not_nameRest_iff, ← not_joining_iff]
  constructor
  · intro h
    exact ⟨h.name, h.point, h.operator⟩
  · intro ⟨hname, hpoint, hoperator⟩
    exact ⟨hname, hpoint, hoperator⟩

instance : DecidablePred Delimiter :=
  fun _ => decidable_of_iff _ delimiter_iff.symm

theorem delimiter_blank : Delimiter ' ' := by decide

/-- A keyword and a blank. -/
theorem writes_keyword_blank (word : Keyword) :
    Writes AnyChar (word.spelling ++ " ") [.keyword word] :=
  (writes_keyword word).before writes_blank rfl delimiter_blank.name

/-- A symbol and a blank. -/
theorem writes_symbol_blank (mark : Symbol) :
    Writes AnyChar (mark.spelling ++ " ") [.symbol mark] :=
  (writes_symbol mark).before writes_blank rfl delimiter_blank.operator

/-- A keyword between blanks. -/
theorem writes_keyword_between (word : Keyword) :
    Writes AnyChar (" " ++ (word.spelling ++ " ")) [.keyword word] :=
  writes_blank.then (writes_keyword_blank word)

/-- A symbol between blanks. -/
theorem writes_symbol_between (mark : Symbol) :
    Writes AnyChar (" " ++ (mark.spelling ++ " ")) [.symbol mark] :=
  writes_blank.then (writes_symbol_blank mark)

/-- A keyword after an opening parenthesis. -/
theorem writes_opening (word : Keyword) :
    Writes AnyChar ("(" ++ (word.spelling ++ " ")) [.symbol .lparen, .keyword word] :=
  writes_lparen.then (writes_keyword_blank word)

end LineScript
