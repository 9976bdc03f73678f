import LineScript.Proofs.Grammar.PrintedReader
import LineScript.Proofs.Grammar.PrintedTree
import LineScript.Proofs.Grammar.Spans
import LineScript.Proofs.Number.Literals

/-!
# Printed trees are unambiguous

Two programs that are printed alike have the same tree, up to places: the printed tree can be read
back. This covers blocks, calls of calls and strings of any characters, which are printed in ways
that the language itself does not read.

  * `Parted rest`, `Closed rest`: no word goes on with the text, and no expression does.
  * `Expr.Scanned`: what is known about a printed expression before any text: how it begins, and
    that it is read as the expression.
  * `scanned_of_opening`: an expression with an opening of its own.
  * `Expr.scanned`: all trees of programs are read back, if their numbers are finite.

**Calls.** The text of a call begins with that of its callee, so no text of an expression is known
to be complete. `Expr.Scanned.reads` therefore says what reading does before an arbitrary text: it
goes on as if the expression had been read already and could still be called.
-/

namespace LineScript

open Lexer Lexicon

/-! ### What follows an expression -/

/-- No word goes on with the text. -/
def Parted (rest : List Char) : Prop :=
  ∀ c ∈ rest.head?, Delimiter c

/-- No expression goes on with the text: no word does, and it is no row of arguments. -/
def Closed (rest : List Char) : Prop :=
  ∀ c ∈ rest.head?, Delimiter c ∧ c ≠ '('

/-- A character that an expression can begin with. -/
def Starts (c : Char) : Prop :=
  isNameStart c = true ∨ c.isDigit = true ∨ c ∈ ['"', '[', '(']

instance (c : Char) : Decidable (Starts c) :=
  inferInstanceAs (Decidable (_ ∨ _ ∨ _))

section following

variable {c : Char} {rest : List Char}

theorem parted_cons (h : Delimiter c) : Parted (c :: rest) := by
  rintro _ ⟨⟩
  exact h

theorem closed_cons (h : Delimiter c ∧ c ≠ '(') : Closed (c :: rest) := by
  rintro _ ⟨⟩
  exact h

theorem closed_nil : Closed [] := nofun

theorem Closed.parted (h : Closed rest) : Parted rest :=
  fun c hc => (h c hc).1

/-- A text that begins in another way is not taken. -/
theorem isPrefixOf_of_head {text : String} {d : Char} {ds : List Char}
    (htext : text.toList = d :: ds) (hne : c ≠ d) :
    text.toList.isPrefixOf (c :: rest) = false := by
  have hne' : (d == c) = false := by simpa using Ne.symm hne
  rw [htext, List.isPrefixOf, hne']
  rfl

theorem isPrefixOf_closed (h : Closed rest) : "(".toList.isPrefixOf rest = false := by
  cases rest with
  | nil => rfl
  | cons c rest => exact isPrefixOf_of_head rfl (h c rfl).2

end following

/-! ### What is known about a printed expression -/

/-- The expression without its places. -/
abbrev Expr.bare (e : Expr) : Expr :=
  e.relocate fun _ => .start

/-- What is known about a printed expression. -/
structure Expr.Scanned (e : Expr) : Prop where
  /-- It begins as expressions do. -/
  starts : Begins Starts e.render
  /-- It does not begin with a keyword. -/
  free : ∀ (word : Keyword) (rest : List Char), Parted rest →
    (word.spelling ++ " ").toList.isPrefixOf (e.render.toList ++ rest) = false
  /-- Reading goes on as if it had been read and could still be called. -/
  reads : ∀ rest reply, Parted rest → Tends (fun n => Scan.calls n e.bare) rest reply →
    Tends Scan.expr (e.render.toList ++ rest) reply

theorem tends_calls_closed (e : Expr) {rest : List Char} (h : Closed rest) :
    Tends (fun n => Scan.calls n e) rest (.value e, rest) :=
  .succ (.declined (isPrefixOf_closed h) (.of_eq fun _ => rfl))

namespace Expr.Scanned

variable {e : Expr}

/-- Before a text that no expression goes on with, the expression is read. -/
theorem closed (h : e.Scanned) {rest : List Char} (hrest : Closed rest) :
    Tends Scan.expr (e.render.toList ++ rest) (.value e.bare, rest) :=
  h.reads rest _ hrest.parted (tends_calls_closed e.bare hrest)

/-- A text that expressions do not begin with is not taken. -/
theorem isPrefixOf (h : e.Scanned) {text : String} {d : Char} {ds : List Char}
    (htext : text.toList = d :: ds) (hd : ¬ Starts d) (rest : List Char) :
    text.toList.isPrefixOf (e.render.toList ++ rest) = false := by
  obtain ⟨c, cs, hrender, hc⟩ := h.starts
  rw [hrender, List.cons_append]
  apply isPrefixOf_of_head htext
  rintro rfl
  exact hd hc

end Expr.Scanned

/-! ### Openings -/

theorem Scan.opening?_append {o : Opening} (ho : o ≠ .operation) (rest : List Char) :
    opening? (o.text.toList ++ rest) = (.value (some o), rest) := by
  cases o with
  | operation => exact absurd rfl ho
  | _ => rfl

/-- An operation begins with its operator or its first operand, and not with a keyword. -/
theorem Scan.opening?_operation {cs : List Char}
    (hfree : ∀ word : Keyword, (word.spelling ++ " ").toList.isPrefixOf cs = false) :
    opening? ('(' :: cs) = (.value (some .operation), cs) := by
  have hassign : "(VAR ".toList.isPrefixOf ('(' :: cs) = false := hfree .var
  have hif : "(IF ".toList.isPrefixOf ('(' :: cs) = false := hfree .if_
  have hfor : "(FOR ".toList.isPrefixOf ('(' :: cs) = false := hfree .for_
  have hwhile : "(WHILE ".toList.isPrefixOf ('(' :: cs) = false := hfree .while_
  have hfunction : "(FUNCTION ".toList.isPrefixOf ('(' :: cs) = false := hfree .function
  have hquote : "\"".toList.isPrefixOf ('(' :: cs) = false := rfl
  have hbracket : "[".toList.isPrefixOf ('(' :: cs) = false := rfl
  have hfind : Opening.all.find? (fun o => o.text.toList.isPrefixOf ('(' :: cs)) =
      some .operation := by
    simp only [Opening.all, List.find?_cons, Opening.text, hquote, hbracket, hassign, hif, hfor,
      hwhile, hfunction]
    rfl
  unfold opening?
  rw [hfind]
  rfl

/-- Words have no opening. -/
theorem Scan.opening?_word {c : Char} {cs : List Char}
    (hc : isNameStart c = true ∨ c.isDigit = true) :
    opening? (c :: cs) = (.value none, c :: cs) := by
  have hnone (o : Opening) : o.text.toList.isPrefixOf (c :: cs) = false := by
    cases o <;> refine isPrefixOf_of_head rfl ?_ <;> rintro rfl <;> revert hc <;> decide
  have hfind : Opening.all.find? (fun o => o.text.toList.isPrefixOf (c :: cs)) = none := by
    simp [List.find?_eq_none, hnone]
  unfold opening?
  rw [hfind]

/-- What is read first is called with the rows of arguments that follow. -/
theorem tends_expr_of_first {e : Expr} {cs rest : List Char}
    {reply : Outcome Unit Expr × List Char} (hfirst : Tends Scan.first cs (.value e, rest))
    (hcalls : Tends (fun n => Scan.calls n e) rest reply) : Tends Scan.expr cs reply :=
  .succ (hfirst.bind hcalls)

theorem tends_first_of_opening {o : Opening} {cs rest : List Char}
    {reply : Outcome Unit Expr × List Char} (hopening : Scan.opening? cs = (.value (some o), rest))
    (hopened : Tends (fun n => Scan.opened n o) rest reply) : Tends Scan.first cs reply :=
  .succ (Tends.bind (.of_eq fun _ => hopening) hopened)

/-- Keywords begin as names do. -/
theorem isPrefixOf_keyword {c : Char} (hc : isNameStart c = false) (word : Keyword)
    (cs : List Char) : (word.spelling ++ " ").toList.isPrefixOf (c :: cs) = false := by
  cases word <;> refine isPrefixOf_of_head rfl ?_ <;> rintro rfl <;> revert hc <;> decide

/-- An expression that begins with a parenthesis, a bracket or a quote. -/
theorem scanned_of_first {e : Expr} {c : Char} {cs : List Char}
    (hrender : e.render.toList = c :: cs) (hc : c ∈ ['"', '[', '('])
    (hfirst : ∀ rest, Tends Scan.first (e.render.toList ++ rest) (.value e.bare, rest)) :
    e.Scanned := by
  refine ⟨⟨c, cs, hrender, .inr (.inr hc)⟩, ?_, ?_⟩
  · intro word rest _
    have hstart : isNameStart c = false := by
      simp only [List.mem_cons, List.not_mem_nil, or_false] at hc
      rcases hc with rfl | rfl | rfl <;> rfl
    rw [hrender]
    exact isPrefixOf_keyword hstart word _
  · intro rest reply _ hcalls
    exact tends_expr_of_first (hfirst rest) hcalls

/-- An expression with an opening of its own. -/
theorem scanned_of_opening {e : Expr} (o : Opening) {inner : String} (ho : o ≠ .operation)
    (hrender : e.render = o.text ++ inner)
    (hread : ∀ rest, Tends (fun n => Scan.opened n o) (inner.toList ++ rest)
      (.value e.bare, rest)) : e.Scanned := by
  have htext : ∃ c cs, o.text.toList = c :: cs ∧ c ∈ ['"', '[', '('] := by
    cases o <;> exact ⟨_, _, rfl, by decide⟩
  obtain ⟨c, cs, htext, hc⟩ := htext
  have hchars : e.render.toList = c :: (cs ++ inner.toList) := by
    rw [hrender, String.toList_append, htext]
    rfl
  refine scanned_of_first hchars hc ?_
  intro rest
  rw [hrender, String.toList_append, List.append_assoc]
  exact tends_first_of_opening (Scan.opening?_append ho _) (hread rest)

/-! ### Words -/

/-- A word ends where a delimiter follows. -/
theorem Parted.head? {rest : List Char} (h : Parted rest) :
    (∀ c ∈ rest.head?, isNameRest c = false) ∧ ∀ c ∈ rest.head?, Scan.inWord c = false := by
  constructor
  · intro c hc
    exact not_nameRest_iff.mp (h c hc).name
  · intro c hc
    have hpoint : (c == '.') = false := by simpa using (h c hc).point
    rw [Scan.inWord, not_nameRest_iff.mp (h c hc).name, hpoint]
    rfl

section words

variable {c : Char} {text : String} {rest : List Char}

theorem isNameRest_of_isNameStart (h : isNameStart c = true) : isNameRest c = true := by
  rw [isNameStart_iff] at h
  rw [isNameRest_iff]
  rcases h with hletter | rfl | rfl
  · exact .inl hletter
  · exact .inr (.inr (.inr (by unfold Accented; decide)))
  · exact .inr (.inr (.inr (by unfold Accented; decide)))

theorem IsIdentifier.all_isNameRest (h : IsIdentifier text) :
    ∀ c ∈ text.toList, isNameRest c = true := by
  obtain ⟨c, cs, rfl, hc, hcs⟩ := h.shape
  rw [String.toList_ofList]
  exact List.forall_mem_cons.mpr ⟨isNameRest_of_isNameStart hc, List.all_eq_true.mp hcs⟩

theorem Scan.name_append (h : IsIdentifier text) (hrest : Parted rest) :
    name (text.toList ++ rest) = (.value text, rest) := by
  have hname := stretch_append h.all_isNameRest hrest.head?.1
  rwa [String.ofList_toList] at hname

/-- A name is no keyword, and does not go on as one. -/
theorem IsIdentifier.isPrefixOf_keyword (h : IsIdentifier text) (word : Keyword)
    (hrest : Parted rest) :
    (word.spelling ++ " ").toList.isPrefixOf (text.toList ++ rest) = false := by
  by_contra hprefix
  rw [Bool.not_eq_false, List.isPrefixOf_iff_prefix] at hprefix
  obtain ⟨cs, hcs⟩ := hprefix
  -- both are read as names, up to the blank and up to the rest
  have hword : word.spelling.toList.all isNameRest = true := by
    cases word <;> decide
  have hblank : ∀ c ∈ (' ' :: cs).head?, isNameRest c = false := by
    rintro _ ⟨⟩
    rfl
  have hread := Scan.stretch_append (List.all_eq_true.mp hword) hblank
  have hsame : word.spelling.toList ++ ' ' :: cs = text.toList ++ rest := by
    rw [← hcs, String.toList_append, List.append_assoc]
    rfl
  rw [hsame, String.ofList_toList] at hread
  have hequal : (Outcome.value text, rest) = (Outcome.value word.spelling, ' ' :: cs) :=
    (Scan.name_append h hrest).symm.trans hread
  have hfree := h.free
  rw [Outcome.value.inj (Prod.mk.inj hequal).1] at hfree
  revert hfree
  cases word <;> decide

/-- Words are read up to a delimiter. -/
theorem tends_first_of_word {cs : List Char} {e : Expr} (htext : text.toList = c :: cs)
    (hc : isNameStart c = true ∨ c.isDigit = true) (hall : ∀ d ∈ text.toList, Scan.inWord d = true)
    (hword : ∀ rest, Scan.ofWord text rest = (.value e, rest)) (hrest : Parted rest) :
    Tends Scan.first (text.toList ++ rest) (.value e, rest) := by
  have hopening : Scan.opening? (text.toList ++ rest) = (.value none, text.toList ++ rest) := by
    rw [htext]
    exact Scan.opening?_word hc
  have hstretch := Scan.stretch_append hall hrest.head?.2
  rw [String.ofList_toList] at hstretch
  refine .succ (Tends.bind (.of_eq fun _ => hopening) (.of_eq fun _ => ?_))
  show (Scan.stretch Scan.inWord >>= Scan.ofWord) (text.toList ++ rest) = _
  rw [Run.bind_apply, hstretch]
  exact hword rest

theorem scanned_name (h : IsIdentifier text) (p : Position) : (Expr.name text p).Scanned := by
  obtain ⟨c, cs, rfl, hc, _⟩ := h.shape
  have htext : (String.ofList (c :: cs)).toList = c :: cs := String.toList_ofList
  have hall : ∀ d ∈ (String.ofList (c :: cs)).toList, Scan.inWord d = true := by
    intro d hd
    rw [Scan.inWord, h.all_isNameRest d hd]
    rfl
  have hdigit : ¬ c.isDigit = true := fun hd =>
    (isNameStart_iff.mp hc).not_digit.1 (isDigit_iff.mp hd)
  have hword : Scan.ofWord (String.ofList (c :: cs)) =
      pure (.name (String.ofList (c :: cs)) .start) := by
    rw [Scan.ofWord, htext]
    exact if_neg hdigit
  refine ⟨⟨c, cs, htext, .inl hc⟩, fun word rest hrest => h.isPrefixOf_keyword word hrest, ?_⟩
  intro rest reply hrest hcalls
  exact tends_expr_of_first
    (tends_first_of_word htext (.inl hc) hall (fun rest => congrFun hword rest) hrest) hcalls

theorem IsLiteral.shape (h : IsLiteral text) :
    ∃ c cs, text.toList = c :: cs ∧ c.isDigit = true ∧ ∀ d ∈ text.toList, Scan.inWord d = true := by
  have hdigit (d : Char) (hd : d.isDigit = true) : Scan.inWord d = true := by
    have hrest : isNameRest d = true := isNameRest_iff.mpr (.inr (.inl (isDigit_iff.mp hd)))
    rw [Scan.inWord, hrest]
    rfl
  cases h with
  | @whole digits hsome hdigits =>
    obtain ⟨c, cs, rfl⟩ := List.exists_cons_of_ne_nil hsome
    have hall := List.all_eq_true.mp hdigits
    refine ⟨c, cs, String.toList_ofList, hall c List.mem_cons_self, ?_⟩
    rw [String.toList_ofList]
    exact fun d hd => hdigit d (hall d hd)
  | @point digits fraction hsome hdigits hfraction =>
    obtain ⟨c, cs, rfl⟩ := List.exists_cons_of_ne_nil hsome
    have hall := List.all_eq_true.mp hdigits
    refine ⟨c, cs ++ '.' :: fraction, String.toList_ofList, hall c List.mem_cons_self, ?_⟩
    rw [String.toList_ofList]
    refine List.forall_mem_append.mpr ⟨fun d hd => hdigit d (hall d hd), ?_⟩
    refine List.forall_mem_cons.mpr ⟨rfl, ?_⟩
    exact fun d hd => hdigit d (List.all_eq_true.mp hfraction d hd)

theorem scanned_number {x : Float} (h : Number.Unsigned x) (p : Position) :
    (Expr.number x p).Scanned := by
  obtain ⟨hliteral, hread⟩ := h.reads_back
  obtain ⟨c, cs, htext, hc, hall⟩ := hliteral.shape
  have hstart : isNameStart c = false := by
    rw [← Bool.not_eq_true, isNameStart_iff]
    exact fun hstart => hstart.not_digit.1 (isDigit_iff.mp hc)
  have hword : Scan.ofWord (Number.render x) = pure (.number x .start) := by
    have hdigit : (Number.render x).toList.head?.any Char.isDigit = true := by
      rw [htext]
      exact hc
    rw [Scan.ofWord, if_pos hdigit, hread]
  refine ⟨⟨c, cs, htext, .inr (.inl hc)⟩, ?_, ?_⟩
  · intro word rest _
    show (word.spelling ++ " ").toList.isPrefixOf ((Number.render x).toList ++ rest) = false
    rw [htext]
    exact isPrefixOf_keyword hstart word _
  · intro rest reply hrest hcalls
    exact tends_expr_of_first
      (tends_first_of_word htext (.inr hc) hall (fun rest => congrFun hword rest) hrest) hcalls

theorem scanned_text (value : String) (p : Position) : (Expr.text value p).Scanned := by
  have hrender : (Expr.text value p).render =
      Opening.quote.text ++ String.ofList (value.toList.flatMap Text.escape ++ ['"']) := by
    show Text.quote value = _
    unfold Text.quote
    rw [List.cons_append, String.ofList_cons]
    rfl
  refine scanned_of_opening .quote nofun hrender ?_
  intro rest
  rw [String.toList_ofList, List.append_assoc]
  refine .succ ((tends_quoted value.toList rest).bind (.of_eq fun _ => ?_))
  rw [String.ofList_toList]
  rfl

end words

/-! ### Rows -/

/-- The text of a row: the first expression, and the others each after a separator. -/
theorem toList_intercalate_cons (separator text : String) (texts : List String) :
    (separator.intercalate (text :: texts)).toList =
      text.toList ++ texts.flatMap fun t => separator.toList ++ t.toList := by
  induction texts generalizing text with
  | nil => simp
  | cons t texts ih =>
    rw [String.intercalate_cons_cons, String.toList_append, String.toList_append, ih]
    simp

section rows

variable {es : List Expr}

theorem Row.closed_closing (r : Row) (rest : List Char) : Closed (r.closing.toList ++ rest) := by
  cases r <;> exact closed_cons (by decide)

theorem Row.closed_separator (r : Row) (rest : List Char) :
    Closed (r.separator.toList ++ rest) := by
  cases r <;> exact closed_cons (by decide)

/-- After an expression of a row comes its end or a separator. -/
theorem Row.closed_further (r : Row) (texts : List String) (rest : List Char) :
    Closed ((texts.flatMap fun t => r.separator.toList ++ t.toList) ++
      (r.closing.toList ++ rest)) := by
  cases texts with
  | nil => exact r.closed_closing rest
  | cons t texts =>
    simp only [List.flatMap_cons, List.append_assoc]
    exact r.closed_separator _

theorem tends_further (r : Row) (h : ∀ e ∈ es, e.Scanned) (rest : List Char) :
    Tends (fun n => Scan.further n r)
      (((es.map Expr.render).flatMap fun t => r.separator.toList ++ t.toList) ++
        (r.closing.toList ++ rest)) (.value (es.map Expr.bare), rest) := by
  induction es with
  | nil => exact .succ (.accepted (.of_eq fun _ => rfl))
  | cons e es ih =>
    obtain ⟨he, hes⟩ := List.forall_mem_cons.mp h
    have hother (cs : List Char) :
        r.closing.toList.isPrefixOf (r.separator.toList ++ cs) = false := by
      cases r <;> rfl
    simp only [List.map_cons, List.flatMap_cons, List.append_assoc]
    refine .succ (.declined (hother _) (.exactly ?_))
    exact (he.closed (r.closed_further _ _)).bind ((ih hes).bind (.of_eq fun _ => rfl))

/-- A row is read up to its closing. -/
theorem tends_row (r : Row) (h : ∀ e ∈ es, e.Scanned) (rest : List Char) :
    Tends (fun n => Scan.row n r)
      ((r.separator.intercalate (es.map Expr.render)).toList ++ (r.closing.toList ++ rest))
      (.value (es.map Expr.bare), rest) := by
  cases es with
  | nil => exact .succ (.accepted (.of_eq fun _ => rfl))
  | cons e es =>
    obtain ⟨he, hes⟩ := List.forall_mem_cons.mp h
    have hother (cs : List Char) : r.closing.toList.isPrefixOf (e.render.toList ++ cs) = false := by
      cases r <;> exact he.isPrefixOf rfl (by decide) cs
    rw [List.map_cons, toList_intercalate_cons, List.append_assoc]
    refine .succ (.declined (hother _) ?_)
    exact (he.closed (r.closed_further _ _)).bind
      ((tends_further r hes rest).bind (.of_eq fun _ => rfl))

end rows

/-! ### Lists, calls and bindings -/

theorem Expr.relocateAll_eq_map (f : Position → Position) (es : List Expr) :
    Expr.relocateAll f es = es.map (Expr.relocate f) := by
  induction es with
  | nil => rfl
  | cons e es ih =>
    show e.relocate f :: Expr.relocateAll f es = _
    rw [ih]
    rfl

/-- Several expressions, read up to the closing of their row. -/
theorem tends_row_renderEach (r : Row) {es : List Expr} (h : ∀ e ∈ es, e.Scanned)
    (rest : List Char) :
    Tends (fun n => Scan.row n r)
      ((r.separator.intercalate (Expr.renderEach es)).toList ++ (r.closing.toList ++ rest))
      (.value (Expr.relocateAll (fun _ => .start) es), rest) := by
  rw [Expr.renderEach_eq_map, Expr.relocateAll_eq_map]
  exact tends_row r h rest

theorem scanned_list {es : List Expr} (h : ∀ e ∈ es, e.Scanned) (p : Position) :
    (Expr.list es p).Scanned := by
  have hrender : (Expr.list es p).render =
      Opening.bracket.text ++ (", ".intercalate (Expr.renderEach es) ++ "]") := by
    simp only [← String.append_assoc]
    rfl
  refine scanned_of_opening .bracket nofun hrender ?_
  intro rest
  rw [String.toList_append, List.append_assoc]
  exact .succ ((tends_row_renderEach .list h rest).bind (.of_eq fun _ => rfl))

/-- The callee is read first, and then called with the arguments. -/
theorem scanned_call {callee : Expr} {arguments : List Expr} (hcallee : callee.Scanned)
    (harguments : ∀ e ∈ arguments, e.Scanned) (p : Position) :
    (Expr.call callee arguments p).Scanned := by
  have hrender : (Expr.call callee arguments p).render =
      callee.render ++ ("(" ++ (", ".intercalate (Expr.renderEach arguments) ++ ")")) := by
    simp only [← String.append_assoc]
    rfl
  have hchars (rest : List Char) : (Expr.call callee arguments p).render.toList ++ rest =
      callee.render.toList ++ ("(".toList ++
        ((", ".intercalate (Expr.renderEach arguments)).toList ++ (")".toList ++ rest))) := by
    simp only [hrender, String.toList_append, List.append_assoc]
  refine ⟨((hcallee.starts.append _).append _).append _, ?_, ?_⟩
  · intro word rest _
    rw [hchars]
    exact hcallee.free word _ (parted_cons (by decide))
  · intro rest reply _ hcalls
    rw [hchars]
    refine hcallee.reads _ reply (parted_cons (by decide)) (.succ (.accepted ?_))
    exact (tends_row_renderEach .arguments harguments rest).bind hcalls

theorem scanned_assign {name : String} {value : Expr} (hname : IsIdentifier name)
    (hvalue : value.Scanned) (p : Position) : (Expr.assign name value p).Scanned := by
  have hrender : (Expr.assign name value p).render =
      Opening.assign.text ++ (name ++ (" = " ++ (value.render ++ ")"))) := by
    simp only [← String.append_assoc]
    rfl
  refine scanned_of_opening .assign nofun hrender ?_
  intro rest
  simp only [String.toList_append, List.append_assoc]
  refine .succ (Tends.bind (.of_eq fun _ => Scan.name_append hname (parted_cons (by decide))) ?_)
  refine .exactly ((hvalue.closed (closed_cons (by decide))).bind ?_)
  exact .exactly (.of_eq fun _ => rfl)

/-! ### Operators -/

/-- An operation: an operator and its operands in parentheses. -/
theorem scanned_of_operation {e : Expr} {inner : String} (hrender : e.render = "(" ++ inner)
    (hfree : ∀ (word : Keyword) (rest : List Char),
      (word.spelling ++ " ").toList.isPrefixOf (inner.toList ++ rest) = false)
    (hread : ∀ rest, Tends (fun n => Scan.opened n .operation) (inner.toList ++ rest)
      (.value e.bare, rest)) : e.Scanned := by
  have hchars : e.render.toList = '(' :: inner.toList := by
    rw [hrender, String.toList_append]
    rfl
  refine scanned_of_first hchars (by decide) ?_
  intro rest
  rw [hchars]
  exact tends_first_of_opening (Scan.opening?_operation fun word => hfree word rest) (hread rest)

/-- The operator of one operand is taken. -/
theorem tends_unary (op : UnaryOperator) (rest : List Char) :
    Tends (fun _ => Scan.unary?) (op.symbol.spelling.toList ++ rest) (.value (some op), rest) := by
  cases op <;> exact .of_eq fun _ => rfl

/-- Expressions do not begin with an operator. -/
theorem Expr.Scanned.tends_unary {e : Expr} (h : e.Scanned) (rest : List Char) :
    Tends (fun _ => Scan.unary?) (e.render.toList ++ rest)
      (.value none, e.render.toList ++ rest) := by
  refine .declined (h.isPrefixOf rfl (by decide) rest) ?_
  refine .declined (h.isPrefixOf rfl (by decide) rest) ?_
  exact .declined (h.isPrefixOf rfl (by decide) rest) (.of_eq fun _ => rfl)

theorem scanned_unary {operand : Expr} (h : operand.Scanned) (op : UnaryOperator) (p : Position) :
    (Expr.unary op operand p).Scanned := by
  have hrender : (Expr.unary op operand p).render =
      "(" ++ (op.symbol.spelling ++ (operand.render ++ ")")) := by
    simp only [← String.append_assoc]
    rfl
  refine scanned_of_operation hrender ?_ ?_
  · intro word rest
    have hinner : (op.symbol.spelling ++ (operand.render ++ ")")).toList ++ rest =
        op.symbol.spelling.toList ++ ((operand.render ++ ")").toList ++ rest) := by
      rw [String.toList_append, List.append_assoc]
    rw [hinner]
    cases op <;> exact isPrefixOf_keyword rfl word _
  · intro rest
    simp only [String.toList_append, List.append_assoc]
    refine .succ ((tends_unary op _).bind ?_)
    exact (h.closed (closed_cons (by decide))).bind (.exactly (.of_eq fun _ => rfl))

/-- An operator is read up to the blank after it. -/
theorem BinaryOperator.stretch_spelling (op : BinaryOperator) (rest : List Char) :
    Scan.stretch (· != ' ') (op.symbol.spelling.toList ++ (" ".toList ++ rest)) =
      (.value op.symbol.spelling, " ".toList ++ rest) := by
  have hspelling : op.symbol.spelling.toList.all (· != ' ') = true := by
    cases op <;> decide
  have hblank : ∀ c ∈ (' ' :: rest).head?, (c != ' ') = false := by
    rintro _ ⟨⟩
    rfl
  have hread := Scan.stretch_append (List.all_eq_true.mp hspelling) hblank
  rw [String.ofList_toList] at hread
  exact hread

theorem BinaryOperator.ofSpelling?_spelling (op : BinaryOperator) :
    ofSpelling? op.symbol.spelling = some op := by
  cases op <;> decide

theorem scanned_binary {left right : Expr} (hleft : left.Scanned) (hright : right.Scanned)
    (op : BinaryOperator) (p : Position) : (Expr.binary op left right p).Scanned := by
  have hrender : (Expr.binary op left right p).render =
      "(" ++ (left.render ++ (" " ++ (op.symbol.spelling ++ (" " ++ (right.render ++ ")"))))) := by
    simp only [← String.append_assoc]
    rfl
  refine scanned_of_operation hrender ?_ ?_
  · intro word rest
    have hinner (text : String) : (left.render ++ (" " ++ text)).toList ++ rest =
        left.render.toList ++ ' ' :: (text.toList ++ rest) := by
      simp only [String.toList_append, List.append_assoc]
      rfl
    rw [hinner]
    exact hleft.free word _ (parted_cons (by decide))
  · intro rest
    simp only [String.toList_append, List.append_assoc]
    refine .succ ((hleft.tends_unary _).bind ((hleft.closed (closed_cons (by decide))).bind ?_))
    refine .exactly (Tends.bind (.of_eq fun _ => op.stretch_spelling _) (.exactly ?_))
    refine (hright.closed (closed_cons (by decide))).bind (.exactly (.of_eq fun _ => ?_))
    rw [op.ofSpelling?_spelling]
    rfl

/-! ### Bodies and branches -/

/-- Before a text that no expression goes on with, the body is read. -/
def Body.Scanned (b : Body) : Prop :=
  ∀ rest, Closed rest →
    Tends Scan.body (b.render.toList ++ rest) (.value (b.relocate fun _ => .start), rest)

/-- Before a closing parenthesis, the branches are read. -/
def Chain.Scanned (chain : Chain) : Prop :=
  ∀ rest, Tends Scan.chain (chain.render.toList ++ (")".toList ++ rest))
    (.value (chain.relocate fun _ => .start), ")".toList ++ rest)

theorem scanned_inline {e : Expr} (h : e.Scanned) : (Body.inline e).Scanned := by
  intro rest hrest
  refine .succ (.declined (h.isPrefixOf rfl (by decide) rest) ?_)
  exact (h.closed hrest).bind (.of_eq fun _ => rfl)

theorem scanned_block {es : List Expr} (h : ∀ e ∈ es, e.Scanned) (p : Position) :
    (Body.block (.list es p)).Scanned := by
  intro rest _
  simp only [Body.render, String.toList_append, List.append_assoc]
  exact .succ (.accepted ((tends_row_renderEach .block h rest).bind (.of_eq fun _ => rfl)))

/-- After a case comes a branch or the closing parenthesis. -/
theorem Chain.closed_render (chain : Chain) (rest : List Char) :
    Closed (chain.render.toList ++ (")".toList ++ rest)) := by
  cases chain <;> simp only [Chain.render, String.toList_append, List.append_assoc] <;>
    exact closed_cons (by decide)

theorem scanned_done : Chain.done.Scanned := by
  intro rest
  exact .succ (.declined rfl (.declined rfl (.of_eq fun _ => rfl)))

theorem scanned_otherwise {b : Body} (h : b.Scanned) : (Chain.otherwise b).Scanned := by
  intro rest
  simp only [Chain.render, String.toList_append, List.append_assoc]
  refine .succ (.declined rfl (.accepted ?_))
  exact (h _ (closed_cons (by decide))).bind (.of_eq fun _ => rfl)

theorem scanned_elif {condition : Expr} {b : Body} {chain : Chain} (hcondition : condition.Scanned)
    (hbody : b.Scanned) (hchain : chain.Scanned) : (Chain.elif condition b chain).Scanned := by
  intro rest
  simp only [Chain.render, String.toList_append, List.append_assoc]
  refine .succ (.accepted ((hcondition.closed (closed_cons (by decide))).bind (.exactly ?_)))
  exact (hbody _ (chain.closed_render rest)).bind ((hchain rest).bind (.of_eq fun _ => rfl))

theorem scanned_ifThen {condition : Expr} {b : Body} {chain : Chain}
    (hcondition : condition.Scanned) (hbody : b.Scanned) (hchain : chain.Scanned) (p : Position) :
    (Expr.ifThen condition b chain p).Scanned := by
  have hrender : (Expr.ifThen condition b chain p).render =
      Opening.ifThen.text ++
        (condition.render ++ (" THEN " ++ (b.render ++ (chain.render ++ ")")))) := by
    simp only [← String.append_assoc]
    rfl
  refine scanned_of_opening .ifThen nofun hrender ?_
  intro rest
  simp only [String.toList_append, List.append_assoc]
  refine .succ ((hcondition.closed (closed_cons (by decide))).bind (.exactly ?_))
  refine (hbody _ (chain.closed_render rest)).bind ((hchain rest).bind ?_)
  exact .exactly (.of_eq fun _ => rfl)

/-! ### Loops and functions -/

section loops

variable {by_ : Option Expr}

/-- After the last number of a loop comes its step or its body. -/
theorem closed_step (by_ : Option Expr) (rest : List Char) :
    Closed ((Expr.renderStep by_).toList ++ (" THEN ".toList ++ rest)) := by
  cases by_ <;> simp only [Expr.renderStep, String.toList_append, List.append_assoc] <;>
    exact closed_cons (by decide)

theorem tends_stepOfLoop (h : ∀ e ∈ by_, e.Scanned) (rest : List Char) :
    Tends Scan.step ((Expr.renderStep by_).toList ++ (" THEN ".toList ++ rest))
      (.value (Expr.relocateStep (fun _ => .start) by_), " THEN ".toList ++ rest) := by
  cases by_ with
  | none => exact .succ (.declined rfl (.of_eq fun _ => rfl))
  | some e =>
    simp only [Expr.renderStep, String.toList_append, List.append_assoc]
    refine .succ (.accepted ?_)
    exact ((h e rfl).closed (closed_cons (by decide))).bind (.of_eq fun _ => rfl)

theorem scanned_forTo {start stop : Expr} {b : Body} {var : String} (hvar : IsIdentifier var)
    (hstart : start.Scanned) (hstop : stop.Scanned) (hstep : ∀ e ∈ by_, e.Scanned)
    (hbody : b.Scanned) (p : Position) : (Expr.forTo var start stop by_ b p).Scanned := by
  have hrender : (Expr.forTo var start stop by_ b p).render =
      Opening.forTo.text ++ (var ++ (" = " ++ (start.render ++ (" TO " ++ (stop.render ++
        (Expr.renderStep by_ ++ (" THEN " ++ (b.render ++ ")")))))))) := by
    simp only [← String.append_assoc]
    rfl
  refine scanned_of_opening .forTo nofun hrender ?_
  intro rest
  simp only [String.toList_append, List.append_assoc]
  refine .succ (Tends.bind (.of_eq fun _ => Scan.name_append hvar (parted_cons (by decide))) ?_)
  refine .exactly ((hstart.closed (closed_cons (by decide))).bind (.exactly ?_))
  refine (hstop.closed (closed_step by_ _)).bind ((tends_stepOfLoop hstep _).bind (.exactly ?_))
  exact (hbody _ (closed_cons (by decide))).bind (.exactly (.of_eq fun _ => rfl))

theorem scanned_whileDo {condition : Expr} {b : Body} (hcondition : condition.Scanned)
    (hbody : b.Scanned) (p : Position) : (Expr.whileDo condition b p).Scanned := by
  have hrender : (Expr.whileDo condition b p).render =
      Opening.whileDo.text ++ (condition.render ++ (" THEN " ++ (b.render ++ ")"))) := by
    simp only [← String.append_assoc]
    rfl
  refine scanned_of_opening .whileDo nofun hrender ?_
  intro rest
  simp only [String.toList_append, List.append_assoc]
  refine .succ ((hcondition.closed (closed_cons (by decide))).bind (.exactly ?_))
  exact (hbody _ (closed_cons (by decide))).bind (.exactly (.of_eq fun _ => rfl))

end loops

section functions

variable {x : Option String} {params : List String} {rest : List Char}

/-- A name that may be missing. If it is, nothing is read. -/
theorem Scan.name_optional (h : ∀ text ∈ x, IsIdentifier text) (rest : List Char) :
    name ((x.getD "").toList ++ ("(".toList ++ rest)) =
      (.value (x.getD ""), "(".toList ++ rest) := by
  cases x with
  | none => rfl
  | some text => exact name_append (h text rfl) (parted_cons (by decide))

/-- Names are not empty, so that a missing name can be told from them. -/
theorem optional_eq (h : ∀ text ∈ x, IsIdentifier text) :
    (if x.getD "" = "" then none else some (x.getD "")) = x := by
  cases x with
  | none => rfl
  | some text =>
    obtain ⟨c, cs, rfl, _⟩ := (h text rfl).shape
    have hne : String.ofList (c :: cs) ≠ "" := by simp
    exact if_neg hne

/-- Parameters are read as a row of names. -/
theorem tends_params (h : ∀ text ∈ params, IsIdentifier text) (rest : List Char) :
    Tends (fun n => Scan.row n .arguments)
      ((", ".intercalate params).toList ++ (")".toList ++ rest))
      (.value (params.map fun text => .name text .start), rest) := by
  have hscanned : ∀ e ∈ params.map fun text => Expr.name text .start, e.Scanned := by
    intro e he
    obtain ⟨text, htext, rfl⟩ := List.mem_map.mp he
    exact scanned_name (h text htext) .start
  have hrow := tends_row .arguments hscanned rest
  have hrender : (params.map fun text => Expr.name text .start).map Expr.render = params := by
    rw [List.map_map]
    exact List.map_id params
  have hbare : (params.map fun text => Expr.name text .start).map Expr.bare =
      params.map fun text => Expr.name text .start := by
    rw [List.map_map]
    rfl
  rw [hrender, hbare] at hrow
  exact hrow

theorem filterMap_name? (params : List String) :
    (params.map fun text => Expr.name text .start).filterMap Expr.name? = params := by
  simp [Function.comp_def, Expr.name?, List.filterMap_map]

theorem scanned_function {b : Body} (hname : ∀ text ∈ x, IsIdentifier text)
    (hparams : ∀ text ∈ params, IsIdentifier text) (hbody : b.Scanned) (p : Position) :
    (Expr.function x params b p).Scanned := by
  have hrender : (Expr.function x params b p).render =
      Opening.function.text ++ (x.getD "" ++ ("(" ++ (", ".intercalate params ++
        (") => " ++ (b.render ++ ")"))))) := by
    simp only [← String.append_assoc]
    rfl
  have harrow : ") => ".toList = ")".toList ++ " => ".toList := rfl
  refine scanned_of_opening .function nofun hrender ?_
  intro rest
  simp only [String.toList_append, List.append_assoc, harrow]
  refine .succ (Tends.bind (.of_eq fun _ => Scan.name_optional hname _) (.exactly ?_))
  refine (tends_params hparams _).bind (.exactly ((hbody _ (closed_cons (by decide))).bind ?_))
  refine .exactly (.of_eq fun _ => ?_)
  rw [optional_eq hname, filterMap_name?]
  rfl

end functions

/-! ### All trees -/

/-- Whether an expression, if it is a number, is a finite one. -/
def Expr.isFinite : Expr → Bool
  | .number x _ => x.isFinite
  | _ => true

/-- All numbers among the expressions are finite. -/
abbrev FiniteNumbers (es : List Expr) : Prop :=
  ∀ e ∈ es, e.isFinite = true

theorem FiniteNumbers.tail {e : Expr} {es : List Expr} (h : FiniteNumbers (e :: es)) :
    FiniteNumbers es :=
  (List.forall_mem_cons.mp h).2

mutual

/-- A well-formed expression with finite numbers is read back. -/
theorem Expr.WellFormed.scanned (e : Expr) (h : e.WellFormed) (hfinite : FiniteNumbers e.preorder) :
    e.Scanned := by
  match e with
  | .number x p =>
    obtain ⟨text, hliteral, hread⟩ := h
    have hx : x.isFinite = true := hfinite (.number x p) List.mem_cons_self
    exact scanned_number (Number.unsigned_of_isLiteral hliteral hread hx) p
  | .text value p => exact scanned_text value p
  | .list es p => exact scanned_list (Expr.AllWellFormed.scanned es h hfinite.tail) p
  | .name x p => exact scanned_name h p
  | .assign x value p =>
    exact scanned_assign h.1 (Expr.WellFormed.scanned value h.2 hfinite.tail) p
  | .binary op left right p =>
    obtain ⟨hleft, hright⟩ := List.forall_mem_append.mp hfinite.tail
    exact scanned_binary (Expr.WellFormed.scanned left h.1 hleft)
      (Expr.WellFormed.scanned right h.2 hright) op p
  | .unary op operand p =>
    exact scanned_unary (Expr.WellFormed.scanned operand h hfinite.tail) op p
  | .ifThen condition b rest p =>
    obtain ⟨hcondition, hbranches⟩ := List.forall_mem_append.mp hfinite.tail
    obtain ⟨hb, hrest⟩ := List.forall_mem_append.mp hbranches
    exact scanned_ifThen (Expr.WellFormed.scanned condition h.1 hcondition)
      (Body.WellFormed.scanned b h.2.1 hb) (Chain.WellFormed.scanned rest h.2.2 hrest) p
  | .forTo var start stop by_ b p =>
    obtain ⟨hvar, hstart, hstop, hby, hb⟩ := h
    obtain ⟨hstart', hlater⟩ := List.forall_mem_append.mp hfinite.tail
    obtain ⟨hstop', hlater⟩ := List.forall_mem_append.mp hlater
    obtain ⟨hby', hb'⟩ := List.forall_mem_append.mp hlater
    exact scanned_forTo hvar (Expr.WellFormed.scanned start hstart hstart')
      (Expr.WellFormed.scanned stop hstop hstop') (Expr.StepWellFormed.scanned by_ hby hby')
      (Body.WellFormed.scanned b hb hb') p
  | .whileDo condition b p =>
    obtain ⟨hcondition, hb⟩ := List.forall_mem_append.mp hfinite.tail
    exact scanned_whileDo (Expr.WellFormed.scanned condition h.1 hcondition)
      (Body.WellFormed.scanned b h.2 hb) p
  | .function x params b p =>
    exact scanned_function h.1 h.2.1 (Body.WellFormed.scanned b h.2.2 hfinite.tail) p
  | .call callee arguments p =>
    obtain ⟨hcallee, harguments⟩ := List.forall_mem_append.mp hfinite.tail
    exact scanned_call (Expr.WellFormed.scanned callee h.1 hcallee)
      (Expr.AllWellFormed.scanned arguments h.2 harguments) p
termination_by structural e

theorem Expr.AllWellFormed.scanned (es : List Expr) (h : Expr.AllWellFormed es)
    (hfinite : FiniteNumbers (Expr.preorderOfAll es)) : ∀ e ∈ es, e.Scanned := by
  match es with
  | [] => nofun
  | e :: es =>
    obtain ⟨he, hes⟩ := List.forall_mem_append.mp hfinite
    exact List.forall_mem_cons.mpr
      ⟨Expr.WellFormed.scanned e h.1 he, Expr.AllWellFormed.scanned es h.2 hes⟩
termination_by structural es

theorem Expr.StepWellFormed.scanned (by_ : Option Expr) (h : Expr.StepWellFormed by_)
    (hfinite : FiniteNumbers (Expr.preorderOfOption by_)) : ∀ e ∈ by_, e.Scanned := by
  match by_ with
  | none => nofun
  | some e =>
    rintro _ ⟨⟩
    exact Expr.WellFormed.scanned e h hfinite
termination_by structural by_

theorem Body.WellFormed.scanned (b : Body) (h : b.WellFormed) (hfinite : FiniteNumbers b.preorder) :
    b.Scanned := by
  match b with
  | .inline e => exact scanned_inline (Expr.WellFormed.scanned e h hfinite)
  | .block (.list es p) =>
    exact scanned_block (Expr.AllWellFormed.scanned es h.2 hfinite.tail) p
termination_by structural b

theorem Chain.WellFormed.scanned (chain : Chain) (h : chain.WellFormed)
    (hfinite : FiniteNumbers chain.preorder) : chain.Scanned := by
  match chain with
  | .done => exact scanned_done
  | .otherwise b => exact scanned_otherwise (Body.WellFormed.scanned b h hfinite)
  | .elif condition b rest =>
    obtain ⟨hcondition, hbranches⟩ := List.forall_mem_append.mp hfinite
    obtain ⟨hb, hrest⟩ := List.forall_mem_append.mp hbranches
    exact scanned_elif (Expr.WellFormed.scanned condition h.1 hcondition)
      (Body.WellFormed.scanned b h.2.1 hb) (Chain.WellFormed.scanned rest h.2.2 hrest)
termination_by structural chain

end

/-- What is printed of a program is read back, up to places. -/
theorem tends_expr_of_parse {source : String} {tokens : List Located} {tree : Expr}
    (htokens : tokenize source = .ok tokens) (hparse : (parse tokens).1 = .value tree)
    (hfinite : FiniteNumbers tree.preorder) :
    Tends Scan.expr tree.render.toList (.value tree.bare, []) := by
  have hprogram := isProgram_of_parse htokens hparse
  have hscanned : tree.Scanned := by
    cases tree with
    | list es p => exact Expr.WellFormed.scanned (.list es p) hprogram hfinite
    | _ => cases hprogram
  have hread := hscanned.closed closed_nil
  rw [List.append_nil] at hread
  exact hread

/-- **Printed trees are unambiguous.** Two programs with finite numbers whose trees are printed
alike have the same tree, up to the places in it. -/
theorem printed_tree_unambiguous {source source' : String} {tokens tokens' : List Located}
    {tree tree' : Expr} (htokens : tokenize source = .ok tokens)
    (hparse : (parse tokens).1 = .value tree) (hfinite : FiniteNumbers tree.preorder)
    (htokens' : tokenize source' = .ok tokens') (hparse' : (parse tokens').1 = .value tree')
    (hfinite' : FiniteNumbers tree'.preorder) (hsame : tree.render = tree'.render) :
    tree.Alike tree' := by
  have hread := tends_expr_of_parse htokens hparse hfinite
  have hread' := tends_expr_of_parse htokens' hparse' hfinite'
  rw [hsame] at hread
  exact Outcome.value.inj (Prod.mk.inj (hread.unique hread')).1

/-- The tokens of a loop on four lines. -/
def linesOfLoop : List Located :=
  [⟨.keyword .while_, ⟨0, 0, 0⟩⟩, ⟨.identifier "x", ⟨6, 0, 6⟩⟩, ⟨.keyword .then_, ⟨8, 0, 8⟩⟩,
    ⟨.newline, ⟨12, 0, 12⟩⟩, ⟨.symbol .lparen, ⟨13, 1, 0⟩⟩, ⟨.identifier "f", ⟨14, 1, 1⟩⟩,
    ⟨.symbol .lparen, ⟨15, 1, 2⟩⟩, ⟨.int "1", ⟨16, 1, 3⟩⟩, ⟨.symbol .rparen, ⟨17, 1, 4⟩⟩,
    ⟨.symbol .rparen, ⟨18, 1, 5⟩⟩, ⟨.symbol .lparen, ⟨19, 1, 6⟩⟩, ⟨.str "\n", ⟨20, 1, 7⟩⟩,
    ⟨.symbol .rparen, ⟨23, 2, 1⟩⟩, ⟨.newline, ⟨24, 2, 2⟩⟩, ⟨.keyword .end_, ⟨25, 3, 0⟩⟩,
    ⟨.eof, ⟨28, 3, 3⟩⟩]

/-- The same loop in parentheses, with its number written as a fraction. -/
def loopInParens : List Located :=
  [⟨.symbol .lparen, ⟨0, 0, 0⟩⟩, ⟨.keyword .while_, ⟨1, 0, 1⟩⟩, ⟨.identifier "x", ⟨7, 0, 7⟩⟩,
    ⟨.keyword .then_, ⟨9, 0, 9⟩⟩, ⟨.newline, ⟨13, 0, 13⟩⟩, ⟨.symbol .lparen, ⟨15, 0, 15⟩⟩,
    ⟨.identifier "f", ⟨16, 0, 16⟩⟩, ⟨.symbol .lparen, ⟨17, 0, 17⟩⟩, ⟨.float "1.0", ⟨18, 0, 18⟩⟩,
    ⟨.symbol .rparen, ⟨21, 0, 21⟩⟩, ⟨.symbol .rparen, ⟨22, 0, 22⟩⟩, ⟨.symbol .lparen, ⟨23, 0, 23⟩⟩,
    ⟨.str "\n", ⟨24, 0, 24⟩⟩, ⟨.symbol .rparen, ⟨27, 1, 1⟩⟩, ⟨.newline, ⟨28, 1, 2⟩⟩,
    ⟨.keyword .end_, ⟨29, 1, 3⟩⟩, ⟨.symbol .rparen, ⟨32, 1, 6⟩⟩, ⟨.eof, ⟨33, 1, 7⟩⟩]

/-- The tree of both, with its nodes at these places. -/
def loopTree (loop condition callee number text : Position) : Expr :=
  let call : Expr := .call (.name "f" callee) [.number 1 number] callee
  let block : Expr := .list [.call call [.text "\n" text] callee] callee
  .list [.whileDo (.name "x" condition) (.block block) loop] loop

/-- The texts differ, and the trees are printed alike. -/
theorem loop_printed_alike :
    ∃ tree tree' : Expr, tokenize "WHILE x THEN\n(f(1))(\"\n\")\nEND" = .ok linesOfLoop ∧
      tokenize "(WHILE x THEN⁋ (f(1.0))(\"\n\")⁋END)" = .ok loopInParens ∧
      (parse linesOfLoop).1 = .value tree ∧ (parse loopInParens).1 = .value tree' ∧
      tree.render = "[(WHILE x THEN \x7bf(1)(\"\\n\")\x7d)]" ∧ tree.render = tree'.render ∧
      tree.Alike tree' := by
  have hlines : tokenize "WHILE x THEN\n(f(1))(\"\n\")\nEND" = .ok linesOfLoop := rfl
  have hparens : tokenize "(WHILE x THEN⁋ (f(1.0))(\"\n\")⁋END)" = .ok loopInParens := rfl
  let tree := loopTree ⟨0, 0, 0⟩ ⟨6, 0, 6⟩ ⟨14, 1, 1⟩ ⟨16, 1, 3⟩ ⟨20, 1, 7⟩
  let tree' := loopTree ⟨1, 0, 1⟩ ⟨7, 0, 7⟩ ⟨16, 0, 16⟩ ⟨18, 0, 18⟩ ⟨24, 0, 24⟩
  have hparse : (parse linesOfLoop).1 = .value tree := rfl
  have hparse' : (parse loopInParens).1 = .value tree' := rfl
  have hfinite : FiniteNumbers tree.preorder := List.all_eq_true.mp rfl
  have hfinite' : FiniteNumbers tree'.preorder := List.all_eq_true.mp rfl
  have hrender : tree.render = "[(WHILE x THEN \x7bf(1)(\"\\n\")\x7d)]" := rfl
  have hsame : tree.render = tree'.render := rfl
  exact ⟨tree, tree', hlines, hparens, hparse, hparse', hrender, hsame,
    printed_tree_unambiguous hlines hparse hfinite hparens hparse' hfinite' hsame⟩

end LineScript
