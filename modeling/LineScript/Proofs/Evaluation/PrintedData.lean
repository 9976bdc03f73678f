import LineScript.Proofs.Evaluation.Layout
import LineScript.Proofs.Grammar.PrintedTree
import LineScript.Proofs.Grammar.RoundTrip
import LineScript.Proofs.Number.Negation

/-!
# Printed data is a program

The text of a list of data is a program, and its result is a list with the list as its only element.

  * `Value.Data`: finite numbers, strings that are quoted without loss, and lists of such values.
  * `Value.PrintedAs v e`: the text of `v` in a list is read as the words of `e`, and every
    expression that differs from `e` in its places alone evaluates to `v`.
  * `Value.Data.printedAs`: every such value is printed as some expression.

A value and the expression it is printed as have the same shape, except that a number with a sign is
the negation of one without.
-/

namespace LineScript

open Grammar

/-! ### Data -/

mutual

/-- A value that its text shows: a finite number, a string of characters that stand in quotes for
themselves or after a backslash, or a list of such values. -/
def Value.Data : Value → Prop
  | .number x => x.isFinite = true
  | .text s => ∀ c ∈ s.toList, Text.Plain c
  | .list vs => Value.AllData vs
  | .function _ => False
  | .builtIn _ => False
termination_by structural v => v

/-- Every one of the values is data. -/
def Value.AllData : List Value → Prop
  | [] => True
  | v :: vs => v.Data ∧ Value.AllData vs
termination_by structural vs => vs

end

/-- How a value that stands in a list is printed. -/
structure Value.PrintedAs (v : Value) (e : Expr) : Prop where
  /-- The expression can stand in a program. -/
  wellFormed : e.WellFormed
  /-- The text is read as the words of the expression. -/
  writes : Writes Delimiter (v.renderIn true) (e.words .needed .closed)
  /-- Wherever it stands, the expression evaluates to the value and changes nothing. -/
  evaluates : ∀ e' : Expr, e'.Alike e → ∀ scope m,
    Tends (fun n => eval n scope e') m (.value v, m)

/-! ### Numbers and strings -/

/-- At the outermost place nothing needs parentheses. -/
theorem place_needed_closed (e : Expr) (write : Follow → List Word) :
    place .needed .closed 0 e write = write .closed := by
  simp [place, Parens.needed, Expr.swallows]

theorem writes_unsigned {x : Float} (h : Number.Unsigned x) :
    Writes Delimiter (Number.render x) [.number x] :=
  (written_number h .start).writes

theorem wellFormed_unsigned {x : Float} (h : Number.Unsigned x) (p : Position) :
    (Expr.number x p).WellFormed := by
  obtain ⟨hliteral, hread⟩ := h.reads_back
  exact ⟨_, hliteral, hread⟩

theorem tends_number (x : Float) (p : Position) (scope : ScopeId) (m : Machine) :
    Tends (fun n => eval n scope (.number x p)) m (.value (.number x), m) :=
  tends_eval (.of_eq fun _ => rfl)

theorem printedAs_unsigned {x : Float} (h : Number.Unsigned x) (p : Position) :
    (Value.number x).PrintedAs (.number x p) := by
  refine ⟨wellFormed_unsigned h p, writes_unsigned h, ?_⟩
  intro e' halike scope m
  cases likeNode_of_alike halike with
  | number => exact tends_number x _ scope m

/-- A number with a sign is the negation of one without. -/
theorem printedAs_signed {x : Float} (h : Number.Signed x) (p : Position) :
    (Value.number x).PrintedAs (.unary .negate (.number (-x) p) p) := by
  refine ⟨wellFormed_unsigned h.unsigned p, ?_, ?_⟩
  · show Writes Delimiter (Number.render x) [.symbol .minus, .number (-x)]
    obtain ⟨c, cs, htext, hc⟩ := (written_number h.unsigned p).opens
    rw [h.render_eq]
    exact (writes_symbol .minus).before (writes_unsigned h.unsigned) htext hc
  · intro e' halike scope m
    cases likeNode_of_alike halike with
    | unary _ hoperand =>
      cases likeNode_of_alike hoperand with
      | number =>
        refine tends_eval ((tends_number (-x) _ scope m).bind (.of_eq fun n => ?_))
        show (Outcome.value (Value.number (- -x)), m) = _
        rw [h.neg_neg]

theorem printedAs_text {s : String} (h : ∀ c ∈ s.toList, Text.Plain c) (p : Position) :
    (Value.text s).PrintedAs (.text s p) := by
  refine ⟨trivial, (written_text h p).writes, ?_⟩
  intro e' halike scope m
  cases likeNode_of_alike halike with
  | text => exact tends_eval (.of_eq fun _ => rfl)

/-! ### Lists -/

theorem Value.renderEach_eq_map (vs : List Value) :
    Value.renderEach vs = vs.map (Value.renderIn true) := by
  induction vs with
  | nil => rfl
  | cons v vs ih => simp only [Value.renderEach, ih, List.map_cons]

section lists

variable {pairs : List (Value × Expr)}

theorem allWellFormed_of_printedAs (h : ∀ a ∈ pairs, a.1.PrintedAs a.2) :
    Expr.AllWellFormed (pairs.map Prod.snd) := by
  induction pairs with
  | nil => trivial
  | cons a pairs ih =>
    obtain ⟨ha, hrest⟩ := List.forall_mem_cons.mp h
    exact ⟨ha.wellFormed, ih hrest⟩

/-- The elements are evaluated one after the other. -/
theorem tends_elements (h : ∀ a ∈ pairs, a.1.PrintedAs a.2) {es : List Expr}
    (halike : List.Forall₂ Expr.Alike es (pairs.map Prod.snd)) (scope : ScopeId) (m : Machine) :
    Tends (fun n => Eval.all (eval n) scope es) m (.value (pairs.map Prod.fst), m) := by
  induction pairs generalizing es with
  | nil =>
    cases halike
    exact .of_eq fun _ => rfl
  | cons a pairs ih =>
    obtain ⟨ha, hrest⟩ := List.forall_mem_cons.mp h
    cases halike with
    | cons hfirst halikes =>
      exact (ha.evaluates _ hfirst scope m).bind ((ih hrest halikes).bind (.of_eq fun _ => rfl))

/-- A list is printed as the list of what its elements are printed as. -/
theorem printedAs_list (h : ∀ a ∈ pairs, a.1.PrintedAs a.2) (p : Position) :
    (Value.list (pairs.map Prod.fst)).PrintedAs (.list (pairs.map Prod.snd) p) := by
  refine ⟨allWellFormed_of_printedAs h, ?_, ?_⟩
  · have hitems : Writes Delimiter
        (", ".intercalate (Value.renderEach (pairs.map Prod.fst)))
        (Expr.wordsJoined .needed (.symbol .comma) (pairs.map Prod.snd)) := by
      rw [Value.renderEach_eq_map, Expr.wordsJoined_eq]
      simp only [place_needed_closed, List.map_map]
      exact writes_joined fun a ha => (h a ha).writes
    exact ((writes_lbracket.then hitems).before writes_rbracket rfl (by decide)).mono
      fun _ _ => trivial
  · intro e' halike scope m
    cases likeNode_of_alike halike with
    | list halikes =>
      exact tends_eval ((tends_elements h halikes scope m).bind (.of_eq fun _ => rfl))

end lists

/-! ### All data -/

mutual

theorem Value.Data.printedAs (v : Value) (h : v.Data) : ∃ e : Expr, v.PrintedAs e := by
  match v with
  | .number x =>
    rcases Number.unsigned_or_signed h with hunsigned | hsigned
    · exact ⟨_, printedAs_unsigned hunsigned .start⟩
    · exact ⟨_, printedAs_signed hsigned .start⟩
  | .text s => exact ⟨_, printedAs_text h .start⟩
  | .list vs =>
    obtain ⟨pairs, rfl, hpairs⟩ := Value.AllData.printedAs vs h
    exact ⟨_, printedAs_list hpairs .start⟩
  | .function f => cases h
  | .builtIn name => cases h
termination_by structural v

theorem Value.AllData.printedAs (vs : List Value) (h : Value.AllData vs) :
    ∃ pairs : List (Value × Expr), pairs.map Prod.fst = vs ∧ ∀ a ∈ pairs, a.1.PrintedAs a.2 := by
  match vs with
  | [] => exact ⟨[], rfl, nofun⟩
  | v :: vs =>
    obtain ⟨e, he⟩ := Value.Data.printedAs v h.1
    obtain ⟨pairs, rfl, hpairs⟩ := Value.AllData.printedAs vs h.2
    exact ⟨(v, e) :: pairs, rfl, List.forall_mem_cons.mpr ⟨he, hpairs⟩⟩
termination_by structural vs

end

/-- A text that is read as the words of an expression is a program of that expression. -/
theorem parse_of_writes {e : Expr} {text : String} (hwellFormed : e.WellFormed)
    (hwrites : Writes Delimiter text (e.words .needed .closed)) :
    ∃ tokens tree, tokenize text = .ok tokens ∧ (parse tokens).1 = .value tree ∧
      tree.Alike (.list [e] .start) := by
  obtain ⟨q, ts, hwords, htokens⟩ := hwrites.tokenize
  have hprintout : (ts ++ [(⟨.eof, q⟩ : Located)]).map Located.word =
      (Expr.list [e] .start).printout := by
    show _ = place .needed .closed 0 e (Expr.words .needed · e) ++ [.token .eof]
    rw [place_needed_closed, List.map_append, hwords]
    rfl
  have hprogram : (Expr.list [e] .start).IsProgram := ⟨hwellFormed, trivial⟩
  obtain ⟨tree, hparse, halike⟩ := parse_printout hprogram hprintout
  exact ⟨_, tree, htokens, hparse, halike⟩

/-- **Printed data reads back.** The text of a list of data is a program. It has a result, which is
the list of this one list. -/
theorem printed_data_reads_back (vs : List Value) (h : (Value.list vs).Data) (clock : Instant) :
    ∃ least, ∀ n, least ≤ n →
      (result n clock (Value.list vs).render).1 = .value (.list [.list vs]) := by
  obtain ⟨e, he⟩ := Value.Data.printedAs (.list vs) h
  -- a list is written in the same way inside and outside of lists
  have hwrites : Writes Delimiter (Value.list vs).render (e.words .needed .closed) := he.writes
  obtain ⟨tokens, tree, htokens, hparse, halike⟩ := parse_of_writes he.wellFormed hwrites
  obtain ⟨log, -, hrun⟩ := runIn_of_parse htokens hparse
  -- the tree is a list with one element, and that evaluates to the list
  have hpairs : ∀ a ∈ [(Value.list vs, e)], a.1.PrintedAs a.2 := List.forall_mem_singleton.mpr he
  obtain ⟨least, hleast⟩ := (printedAs_list hpairs .start).evaluates tree halike Machine.root
    ((Machine.global clock).note log)
  refine ⟨least, ?_⟩
  intro n hn
  have heval : eval n Machine.root tree ((Machine.global clock).note log) =
      (.value (.list [.list vs]), (Machine.global clock).note log) := hleast n hn
  rw [result, hrun, evaluate_apply, heval]
  rfl

/-- A list with a negative zero, a negative fraction, quotes, a backslash, and lists inside it. -/
theorem nested_list_reads_back :
    let vs : List Value := [.number (-0), .list [], .list [.number (-2.5), .text "a \"b\" \\"]]
    (Value.list vs).Data ∧ (Value.list vs).render = "[-0, [], [-2.5, \"a \\\"b\\\" \\\\\"]]" ∧
      ∃ least, ∀ n, least ≤ n →
        (result n ⟨0, 0⟩ (Value.list vs).render).1 = .value (.list [.list vs]) := by
  intro vs
  have hchars : ("a \"b\" \\".toList.all fun c => Text.Plain c) = true := by decide
  have htext : ∀ c ∈ "a \"b\" \\".toList, Text.Plain c :=
    fun c hc => of_decide_eq_true (List.all_eq_true.mp hchars c hc)
  have hdata : (Value.list vs).Data := ⟨rfl, trivial, ⟨rfl, htext, trivial⟩, trivial⟩
  exact ⟨hdata, rfl, printed_data_reads_back vs hdata ⟨0, 0⟩⟩

end LineScript
