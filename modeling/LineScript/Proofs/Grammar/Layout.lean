import Mathlib.Data.List.Forall2
import LineScript.Proofs.Grammar.EarliestError
import LineScript.Proofs.Grammar.Printing

/-!
# Layout does not matter

Two texts whose tokens differ only in their places and in how many separators stand in a row are
read in the same way: as trees that are the same up to places, or with errors that are.

  * `squeeze` cuts every run of separators down to one.
  * `Abreast i j c c'`: what is left at the two cursors is the same up to layout, and either both have
    come as far as the marks `i` and `j` or both stand right before them.
  * `InStep rel rule rule'`: from cursors that are abreast on, the rules give related values or like
    errors, and the cursors are abreast again.
  * `CatchUp rel rule rule'`: the same for rules that skip separators first, so that it does not
    matter how many are left.

**Key idea.** The parser that looks ahead never goes back, so its two runs can be compared token by
token. A run of separators is entered at its first one only, and left at its end: a block takes one
separator and its statements skip the others. The marks are what `Rule.expecting` compares: it asks
whether a rule has moved, and with marks right behind the place where the rule starts, the runs give
the same answer.
-/

namespace LineScript

/-! ### Runs of separators -/

/-- The token is neither a separator nor the end. -/
def Token.isContent : Token → Bool
  | .newline | .eof => false
  | _ => true

theorem Token.isContent_iff {token : Token} :
    token.isContent = true ↔ token ≠ .newline ∧ token ≠ .eof := by
  cases token <;> simp [Token.isContent]

/-- The tokens with every run of separators cut down to one. -/
def squeeze : List Token → List Token
  | [] => []
  | t :: ts => if t = .newline ∧ ts.head? = some .newline then squeeze ts else t :: squeeze ts

theorem squeeze_cons {t : Token} (h : t ≠ .newline) (ts : List Token) :
    squeeze (t :: ts) = t :: squeeze ts := by
  rw [squeeze, if_neg fun hboth => h hboth.1]

theorem head?_squeeze (ts : List Token) : (squeeze ts).head? = ts.head? := by
  induction ts with
  | nil => rfl
  | cons t ts ih =>
    rw [squeeze]
    split
    · next hboth => rw [ih, hboth.1, hboth.2, List.head?_cons]
    · rfl

theorem squeeze_dropWhile (ts : List Token) :
    squeeze (ts.dropWhile (· = .newline)) = (squeeze ts).dropWhile (· = .newline) := by
  induction ts with
  | nil => rfl
  | cons t ts ih =>
    by_cases ht : t = .newline
    · subst ht
      rw [List.dropWhile_cons_of_pos (by simp), ih, squeeze]
      split
      · rfl
      · rw [List.dropWhile_cons_of_pos (by simp)]
    · rw [squeeze_cons ht, List.dropWhile_cons_of_neg (by simpa using ht),
        List.dropWhile_cons_of_neg (by simpa using ht), squeeze_cons ht]

/-- What matters of a list of tokens: neither the places nor the lengths of runs of separators. -/
def outline (ts : List Located) : List Token :=
  squeeze (ts.map Located.token)

theorem outline_cons {t : Located} (h : t.token ≠ .newline) (ts : List Located) :
    outline (t :: ts) = t.token :: outline ts :=
  squeeze_cons h _

theorem outline_dropWhile (ts : List Located) :
    outline (ts.dropWhile Located.isNewline) = (outline ts).dropWhile (· = .newline) := by
  rw [outline, outline, ← squeeze_dropWhile, List.dropWhile_map]
  rfl

theorem next_of_outline {ts ts' : List Located} (h : outline ts' = outline ts) :
    next ts' = next ts := by
  have hhead := congrArg List.head? h
  rw [outline, outline, head?_squeeze, head?_squeeze, List.head?_map, List.head?_map] at hhead
  rw [next, hhead, next]

/-! ### Errors at other places -/

/-- The same error at another place. -/
def SyntaxError.relocate (f : Position → Position) : SyntaxError → SyntaxError
  | unexpected expected found p => unexpected expected found (f p)
  | unclosed construct found p => unclosed construct found (f p)

/-- Two errors are the same up to their place. -/
abbrev SyntaxError.Alike (a b : SyntaxError) : Prop :=
  (a.relocate fun _ => .start) = b.relocate fun _ => .start

/-! ### Cursors -/

/-- The tokens left at two cursors are the same up to layout, nothing is on record, and either both
have come as far as their marks or both stand right before them. -/
structure Abreast (i j : Nat) (c c' : Cursor) : Prop where
  /-- The first has no record. -/
  fresh : c.Fresh
  /-- The second has no record. -/
  fresh' : c'.Fresh
  /-- The same is left up to layout. -/
  same : outline c'.rest = outline c.rest
  /-- Both have come to their marks, or both stand right before them. -/
  marks : (i ≤ c.index ∧ j ≤ c'.index) ∨ (i = c.index + 1 ∧ j = c'.index + 1)

/-- The same, except that any number of separators may be left before the next token at each of the
two cursors, which both have come to their marks. -/
structure AfterBreaks (i j : Nat) (c c' : Cursor) : Prop where
  /-- The first has no record. -/
  fresh : c.Fresh
  /-- The second has no record. -/
  fresh' : c'.Fresh
  /-- After the separators the same is left up to layout. -/
  same : outline (c'.rest.dropWhile Located.isNewline) =
    outline (c.rest.dropWhile Located.isNewline)
  /-- Both have come to their marks. -/
  marks : i ≤ c.index ∧ j ≤ c'.index

section cursors

variable {i j : Nat} {c c' : Cursor}

theorem Abreast.peek (h : Abreast i j c c') : c'.peek = c.peek := by
  rw [← h.fresh.ended.next_rest, ← h.fresh'.ended.next_rest]
  exact next_of_outline h.same

/-- Cursors that are abreast are so with marks right behind them, too. -/
theorem Abreast.atMarks (h : Abreast i j c c') : Abreast (c.index + 1) (c'.index + 1) c c' :=
  ⟨h.fresh, h.fresh', h.same, .inr ⟨rfl, rfl⟩⟩

theorem Abreast.afterBreaks (h : Abreast i j c c') (hi : i ≤ c.index) (hj : j ≤ c'.index) :
    AfterBreaks i j c c' :=
  ⟨h.fresh, h.fresh', by rw [outline_dropWhile, outline_dropWhile, h.same], hi, hj⟩

theorem AfterBreaks.skipNewlines (h : AfterBreaks i j c c') :
    Abreast i j c.skipNewlines.2 c'.skipNewlines.2 := by
  obtain ⟨-, hleaves, -⟩ := h.fresh.skipNewlines
  obtain ⟨-, hleaves', -⟩ := h.fresh'.skipNewlines
  refine ⟨hleaves.fresh h.fresh, hleaves'.fresh h.fresh', ?_, .inl ⟨?_, ?_⟩⟩
  · rw [h.fresh.ended.rest_skipNewlines, h.fresh'.ended.rest_skipNewlines]
    exact h.same
  · exact Nat.le_trans h.marks.1 hleaves.reach.index_le
  · exact Nat.le_trans h.marks.2 hleaves'.reach.index_le

/-- Moving past a token that is no separator. -/
theorem Abreast.advance (h : Abreast i j c c') (hcontent : c.peek.isContent = true) :
    Abreast i j c.advance c'.advance := by
  obtain ⟨hnewline, heof⟩ := Token.isContent_iff.mp hcontent
  have heof' : c'.peek ≠ .eof := by rw [h.peek]; exact heof
  have hnewline' : c'.peek ≠ .newline := by rw [h.peek]; exact hnewline
  obtain ⟨htext, hleaves⟩ := h.fresh.advance heof
  obtain ⟨htext', hleaves'⟩ := h.fresh'.advance heof'
  have hsame := h.same
  rw [htext, htext', List.singleton_append, List.singleton_append, outline_cons hnewline,
    outline_cons hnewline'] at hsame
  have hindex := h.fresh.ended.index_lt_advance heof
  have hindex' := h.fresh'.ended.index_lt_advance heof'
  have hmarks := h.marks
  exact ⟨hleaves.fresh h.fresh, hleaves'.fresh h.fresh', (List.cons.inj hsame).2,
    .inl ⟨by omega, by omega⟩⟩

/-- Moving past a separator: the others of its run may still be left. -/
theorem Abreast.advance_newline (h : Abreast i j c c') (hnewline : c.peek = .newline) :
    AfterBreaks i j c.advance c'.advance := by
  have heof : c.peek ≠ .eof := by rw [hnewline]; decide
  have heof' : c'.peek ≠ .eof := by rw [h.peek]; exact heof
  obtain ⟨htext, hleaves⟩ := h.fresh.advance heof
  obtain ⟨htext', hleaves'⟩ := h.fresh'.advance heof'
  have hfirst : c.current.isNewline = true := decide_eq_true hnewline
  have hfirst' : c'.current.isNewline = true := decide_eq_true (h.peek.trans hnewline)
  have hsame : outline (c'.rest.dropWhile Located.isNewline) =
      outline (c.rest.dropWhile Located.isNewline) := by
    rw [outline_dropWhile, outline_dropWhile, h.same]
  rw [htext, htext', List.singleton_append, List.singleton_append,
    List.dropWhile_cons_of_pos hfirst, List.dropWhile_cons_of_pos hfirst'] at hsame
  have hindex := h.fresh.ended.index_lt_advance heof
  have hindex' := h.fresh'.ended.index_lt_advance heof'
  have hmarks := h.marks
  exact ⟨hleaves.fresh h.fresh, hleaves'.fresh h.fresh', hsame, by omega, by omega⟩

theorem Abreast.count (h : Abreast i j c c') : c'.skipNewlines.1 = 0 ↔ c.skipNewlines.1 = 0 := by
  rw [h.fresh.ended.skipNewlines_eq_zero, h.fresh'.ended.skipNewlines_eq_zero, h.peek]

theorem Abreast.skipNewlines (h : Abreast i j c c') :
    Abreast i j c.skipNewlines.2 c'.skipNewlines.2 := by
  obtain ⟨htext, hleaves, hcount⟩ := h.fresh.skipNewlines
  obtain ⟨htext', hleaves', hcount'⟩ := h.fresh'.skipNewlines
  have hindex := hleaves.index h.fresh htext
  have hindex' := hleaves'.index h.fresh' htext'
  have hboth := h.count
  have hmarks := h.marks
  refine ⟨hleaves.fresh h.fresh, hleaves'.fresh h.fresh', ?_, by omega⟩
  rw [h.fresh.ended.rest_skipNewlines, h.fresh'.ended.rest_skipNewlines, outline_dropWhile,
    outline_dropWhile, h.same]

end cursors

/-! ### Rules in step -/

/-- How two rules may end if they keep in step. What they do once one of them is at its bound is left
open. -/
inductive EndInStep {α : Type} (rel : α → α → Prop) (i j : Nat) :
    Outcome SyntaxError α × Cursor → Outcome SyntaxError α × Cursor → Prop
  /-- With related values. -/
  | value {a a' : α} {d d' : Cursor} (like : rel a a') (abreast : Abreast i j d d') :
    EndInStep rel i j (.value a, d) (.value a', d')
  /-- With errors that are the same up to their places. -/
  | error {e e' : SyntaxError} {d d' : Cursor} (like : e.Alike e') (abreast : Abreast i j d d') :
    EndInStep rel i j (.error e, d) (.error e', d')
  /-- The first is at its bound. -/
  | exhausted {d : Cursor} {reply' : Outcome SyntaxError α × Cursor} :
    EndInStep rel i j (.exhausted, d) reply'
  /-- The second is at its bound. -/
  | exhausted' {reply : Outcome SyntaxError α × Cursor} {d' : Cursor} :
    EndInStep rel i j reply (.exhausted, d')

/-- From cursors that are abreast on, the rules keep in step. -/
def InStep {α : Type} (rel : α → α → Prop) (rule rule' : Rule α) : Prop :=
  ∀ i j c c', Abreast i j c c' → EndInStep rel i j (rule c) (rule' c')

/-- From cursors that are abreast at the given token on, the rules keep in step. -/
def InStepAt {α : Type} (token : Token) (rel : α → α → Prop) (rule rule' : Rule α) : Prop :=
  ∀ i j c c', Abreast i j c c' → c.peek = token → EndInStep rel i j (rule c) (rule' c')

/-- From cursors that are abreast after any number of separators on, the rules come to be in step. -/
def CatchUp {α : Type} (rel : α → α → Prop) (rule rule' : Rule α) : Prop :=
  ∀ i j c c', AfterBreaks i j c c' → EndInStep rel i j (rule c) (rule' c')

section combinators

open Run Rule

variable {α β : Type} {rel : α → α → Prop} {rel' : β → β → Prop} {token : Token}

theorem EndInStep.bind {i j : Nat} {c c' : Cursor} {rule rule' : Rule α} {next next' : α → Rule β}
    (h : EndInStep rel i j (rule c) (rule' c'))
    (hnext : ∀ a a', rel a a' → InStep rel' (next a) (next' a')) :
    EndInStep rel' i j ((rule >>= next) c) ((rule' >>= next') c') := by
  rw [Run.bind_apply, Run.bind_apply]
  generalize rule c = reply, rule' c' = reply' at h
  cases h with
  | value like abreast => exact hnext _ _ like _ _ _ _ abreast
  | error like abreast => exact .error like abreast
  | exhausted => exact .exhausted
  | exhausted' => exact .exhausted'

theorem InStep.bind {rule rule' : Rule α} {next next' : α → Rule β} (h : InStep rel rule rule')
    (hnext : ∀ a a', rel a a' → InStep rel' (next a) (next' a')) :
    InStep rel' (rule >>= next) (rule' >>= next') :=
  fun i j c c' habreast => (h i j c c' habreast).bind hnext

theorem CatchUp.bind {rule rule' : Rule α} {next next' : α → Rule β} (h : CatchUp rel rule rule')
    (hnext : ∀ a a', rel a a' → InStep rel' (next a) (next' a')) :
    CatchUp rel' (rule >>= next) (rule' >>= next') :=
  fun i j c c' hbehind => (h i j c c' hbehind).bind hnext

theorem InStep.at {rule rule' : Rule α} (h : InStep rel rule rule') (token : Token) :
    InStepAt token rel rule rule' :=
  fun i j c c' habreast _ => h i j c c' habreast

theorem inStep_pure {a a' : α} (h : rel a a') : InStep rel (pure a) (pure a') :=
  fun _ _ _ _ habreast => .value h habreast

theorem inStep_exhausted {rule' : Rule α} : InStep rel exhausted rule' :=
  fun _ _ _ _ _ => .exhausted

theorem inStep_exhausted' {rule : Rule α} : InStep rel rule exhausted :=
  fun _ _ _ _ _ => .exhausted'

/-- The rules may look at the current token, which is the same. -/
theorem inStep_peek_bind {next next' : Token → Rule β}
    (hnext : ∀ token, InStepAt token rel' (next token) (next' token)) :
    InStep rel' (look Cursor.peek >>= next) (look Cursor.peek >>= next') := by
  intro i j c c' habreast
  show EndInStep rel' i j (next c.peek c) (next' c'.peek c')
  rw [habreast.peek]
  exact hnext _ i j c c' habreast rfl

theorem inStep_sees_bind {next next' : Bool → Rule β}
    (hseen : InStepAt token rel' (next true) (next' true))
    (hother : InStep rel' (next false) (next' false)) :
    InStep rel' (sees token >>= next) (sees token >>= next') := by
  intro i j c c' habreast
  show EndInStep rel' i j (next (decide (c.peek = token)) c) (next' (decide (c'.peek = token)) c')
  rw [habreast.peek]
  by_cases htoken : c.peek = token
  · rw [decide_eq_true htoken]
    exact hseen i j c c' habreast htoken
  · rw [decide_eq_false htoken]
    exact hother i j c c' habreast

theorem inStep_position_bind {next next' : Position → Rule β}
    (hnext : ∀ p p', InStep rel' (next p) (next' p')) :
    InStep rel' (look Cursor.position >>= next) (look Cursor.position >>= next') :=
  fun i j c c' habreast => hnext c.position c'.position i j c c' habreast

/-- The rules may move past a token other than a separator. -/
theorem inStepAt_advance_bind {next next' : Located → Rule β} (hcontent : token.isContent = true)
    (hnext : ∀ t t', InStep rel' (next t) (next' t')) :
    InStepAt token rel' (advance >>= next) (advance >>= next') := by
  rintro i j c c' habreast rfl
  exact hnext c.current c'.current i j c.advance c'.advance (habreast.advance hcontent)

theorem Abreast.unexpected {i j : Nat} {c c' : Cursor} (h : Abreast i j c c') (expected : String) :
    (c.unexpected expected).Alike (c'.unexpected expected) := by
  rw [Cursor.unexpected, Cursor.unexpected, h.peek]
  rfl

theorem inStep_unexpected (expected : String) :
    InStep rel (unexpected expected) (unexpected expected) :=
  fun _ _ _ _ habreast => .error (habreast.unexpected expected) habreast

/-- Nothing is on record, so the error is the one given. -/
theorem inStep_failOr {error error' : Cursor → SyntaxError}
    (herror : ∀ i j c c', Abreast i j c c' → (error c).Alike (error' c')) :
    InStep rel (failOr error) (failOr error') := by
  intro i j c c' habreast
  rw [failOr_of_clear _ habreast.fresh.clear, failOr_of_clear _ habreast.fresh'.clear]
  exact .error (herror i j c c' habreast) habreast

theorem inStep_expect (token : Token) (hcontent : token.isContent = true) (expected : String) :
    InStep (fun _ _ => True) (expect token expected) (expect token expected) := by
  refine inStep_sees_bind ?_ (inStep_unexpected expected)
  exact inStepAt_advance_bind hcontent fun _ _ => inStep_pure trivial

theorem inStep_symbol (mark : Symbol) :
    InStep (fun _ _ => True) (expectSymbol mark) (expectSymbol mark) :=
  inStep_expect (.symbol mark) rfl _

theorem inStep_keyword (word : Keyword) :
    InStep (fun _ _ => True) (expectKeyword word) (expectKeyword word) :=
  inStep_expect (.keyword word) rfl _

theorem inStep_expectIdentifier : InStep Eq expectIdentifier expectIdentifier := by
  refine inStep_peek_bind fun token => ?_
  split
  · exact inStepAt_advance_bind rfl fun _ _ => inStep_pure rfl
  · exact (inStep_unexpected _).at _

theorem inStep_skipNewlines :
    InStep (fun count count' => count' = 0 ↔ count = 0) skipNewlines skipNewlines :=
  fun _ _ _ _ habreast => .value habreast.count habreast.skipNewlines

theorem catchUp_skipNewlines : CatchUp (fun _ _ => True) skipNewlines skipNewlines :=
  fun _ _ _ _ hbehind => .value trivial hbehind.skipNewlines

/-- Whether the rule has moved is the same in both runs. -/
theorem InStep.expecting {rule rule' : Rule α} (expected : String) (h : InStep rel rule rule') :
    InStep rel (expecting expected rule) (expecting expected rule') := by
  intro i j c c' habreast
  have hend := h i j c c' habreast
  have hmoved := h _ _ c c' habreast.atMarks
  unfold Rule.expecting
  generalize rule c = reply, rule' c' = reply' at hend hmoved
  cases hend with
  | value like abreast => exact .value like abreast
  | @error e e' d d' like abreast =>
    cases hmoved with
    | error _ hmarks =>
      have hsame : d'.index = c'.index ↔ d.index = c.index := by
        have := hmarks.marks
        omega
      by_cases hstill : d.index = c.index
      · simp only [hstill, hsame.mpr hstill, if_true]
        exact .error (abreast.unexpected expected) abreast
      · simp only [hstill, mt hsame.mp hstill, if_false]
        exact .error like abreast
  | exhausted => exact .exhausted
  | exhausted' => exact .exhausted'

/-- Items related one by one. -/
theorem inStep_items {item item' : Rule α} (closing : Symbol) (hitem : InStep rel item item')
    (n n' : Nat) :
    InStep (List.Forall₂ rel) (items item closing n) (items item' closing n') := by
  induction n generalizing n' with
  | zero => exact inStep_exhausted
  | succ n ih =>
    cases n' with
    | zero => exact inStep_exhausted'
    | succ n' =>
      refine hitem.bind fun first first' hfirst => inStep_peek_bind fun token => ?_
      split
      · next hcomma =>
        subst hcomma
        refine inStepAt_advance_bind rfl fun _ _ => (ih n').bind fun rest rest' hrest => ?_
        exact inStep_pure (.cons hfirst hrest)
      · split
        · next hclosing =>
          subst hclosing
          exact inStepAt_advance_bind rfl fun _ _ => inStep_pure (.cons hfirst .nil)
        · exact (inStep_unexpected _).at _

theorem inStep_separated {item item' : Rule α} (closing : Symbol) (hitem : InStep rel item item')
    (n n' : Nat) :
    InStep (List.Forall₂ rel) (separated item closing n) (separated item' closing n') := by
  refine inStep_sees_bind ?_ (inStep_items closing hitem n n')
  exact inStepAt_advance_bind rfl fun _ _ => inStep_pure .nil

end combinators

/-! ### The rules of the grammar -/

/-- The nested rules keep in step, those for statements after any number of separators. -/
structure Nested.InStep (sub sub' : Nested) : Prop where
  /-- One expression. -/
  expression : LineScript.InStep Expr.Alike sub.expression sub'.expression
  /-- The statements of a block. -/
  statements : CatchUp Expr.Alike sub.statements sub'.statements

theorem allAlike_of_forall₂ {es es' : List Expr} (h : List.Forall₂ Expr.Alike es es') :
    Expr.AllAlike es es' := by
  induction h with
  | nil => rfl
  | cons he _ ih => simp only [Expr.AllAlike, Expr.relocateAll, he, ih]

/-- Two steps of a loop are the same up to places. -/
abbrev Expr.StepAlike (a b : Option Expr) : Prop :=
  Expr.relocateStep (fun _ => .start) a = Expr.relocateStep (fun _ => .start) b

/-- Two cases of a conditional are the same up to places. -/
def CaseAlike (a b : Expr × Body × Chain) : Prop :=
  a.1.Alike b.1 ∧ a.2.1.Alike b.2.1 ∧ a.2.2.Alike b.2.2

namespace Grammar

open Run Rule

variable {sub sub' : Nested}

theorem inStep_chain {operand operand' : Rule Expr} (accepts : BinaryOperator → Bool)
    (h : InStep Expr.Alike operand operand') (n n' : Nat) {left left' : Expr}
    (hleft : left.Alike left') :
    InStep Expr.Alike (chain accepts operand n left) (chain accepts operand' n' left') := by
  induction n generalizing n' left left' with
  | zero => exact inStep_exhausted
  | succ n ih =>
    cases n' with
    | zero => exact inStep_exhausted'
    | succ n' =>
      refine inStep_peek_bind fun token => ?_
      split
      · next op hop =>
        refine inStepAt_advance_bind (Token.isContent_iff.mpr ⟨?_, ?_⟩) fun _ _ =>
          h.bind fun right right' hright => ?_
        · rintro rfl
          cases hop
        · rintro rfl
          cases hop
        · exact ih n' (by simp only [Expr.Alike, Expr.relocate, hleft, hright])
      · exact (inStep_pure hleft).at _

theorem inStep_leftAssociative {operand operand' : Rule Expr} (accepts : BinaryOperator → Bool)
    (h : InStep Expr.Alike operand operand') (n n' : Nat) :
    InStep Expr.Alike (leftAssociative accepts operand n) (leftAssociative accepts operand' n') :=
  h.bind fun _ _ hfirst => inStep_chain accepts h n n' hfirst

/-- A block takes the first separator of a run, its statements skip the others. -/
theorem inStep_block (hsub : sub.InStep sub') : InStep Body.Alike (block sub) (block sub') := by
  intro i j c c' habreast
  unfold block
  rw [Run.bind_apply, Run.bind_apply]
  by_cases hnewline : c.peek = .newline
  · rw [expect_of_peek hnewline, expect_of_peek (habreast.peek.trans hnewline)]
    have hstatements := hsub.statements i j _ _ (habreast.advance_newline hnewline)
    exact hstatements.bind fun b b' hb =>
      inStep_pure (by simp only [Body.Alike, Body.relocate, hb])
  · have hnewline' : c'.peek ≠ .newline := by rw [habreast.peek]; exact hnewline
    rw [expect_of_peek_ne hnewline, expect_of_peek_ne hnewline']
    exact .error (habreast.unexpected _) habreast

theorem inStep_blockEnd (construct : Keyword) :
    InStep Eq (blockEnd construct) (blockEnd construct) := by
  refine inStep_sees_bind ?_ (inStep_failOr fun i j c c' habreast => ?_)
  · exact inStepAt_advance_bind rfl fun _ _ => inStep_pure rfl
  · rw [habreast.peek]
    rfl

theorem inStep_inlineBody (hsub : sub.InStep sub') :
    InStep Body.Alike (inlineBody sub) (inlineBody sub') :=
  hsub.expression.bind fun e e' he => inStep_pure (by simp only [Body.Alike, Body.relocate, he])

theorem inStep_closedBlock (hsub : sub.InStep sub') (construct : Keyword) :
    InStep Body.Alike (do
      let b ← block sub
      blockEnd construct
      pure b) (do
      let b ← block sub'
      blockEnd construct
      pure b) :=
  (inStep_block hsub).bind fun _ _ hb => (inStep_blockEnd construct).bind fun _ _ _ => inStep_pure hb

theorem inStep_body (hsub : sub.InStep sub') (construct : Keyword) :
    InStep Body.Alike (body sub construct) (body sub' construct) :=
  inStep_sees_bind ((inStep_closedBlock hsub construct).at _) (inStep_inlineBody hsub)

theorem inStep_afterCase {case case' : Rule (Expr × Body × Chain)} (hsub : sub.InStep sub')
    (hcase : InStep CaseAlike case case') :
    InStep Chain.Alike (afterCase sub case) (afterCase sub' case') := by
  refine inStep_sees_bind (InStep.at ?_ _) (inStep_sees_bind ?_ (inStep_pure rfl))
  · refine hcase.bind ?_
    rintro ⟨c, b, r⟩ ⟨c', b', r'⟩ ⟨hc, hb, hr⟩
    exact inStep_pure (by simp_all only [Chain.Alike, Chain.relocate])
  · refine inStepAt_advance_bind rfl fun _ _ => ?_
    exact (inStep_body hsub .else_).bind fun b b' hb =>
      inStep_pure (by simp only [Chain.Alike, Chain.relocate, hb])

theorem inStep_ifCase (hsub : sub.InStep sub') (n n' : Nat) (word : Keyword) :
    InStep CaseAlike (ifCase sub n word) (ifCase sub' n' word) := by
  induction n generalizing n' word with
  | zero => exact inStep_exhausted
  | succ n ih =>
    cases n' with
    | zero => exact inStep_exhausted'
    | succ n' =>
      refine (inStep_keyword word).bind fun _ _ _ => hsub.expression.bind fun c c' hc => ?_
      refine (inStep_keyword .then_).bind fun _ _ _ => inStep_sees_bind (InStep.at ?_ _) ?_
      · refine (inStep_block hsub).bind fun b b' hb => inStep_sees_bind ?_ ?_
        · exact inStepAt_advance_bind rfl fun _ _ => inStep_pure ⟨hc, hb, rfl⟩
        · -- an `ELIF` or `ELSE` goes on, and without one the block must be closed
          have hbranch := (inStep_afterCase hsub (ih n' .elif)).bind fun r r' hr =>
            inStep_pure (show CaseAlike (c, b, r) (c', b', r') from ⟨hc, hb, hr⟩)
          have hclosed := (inStep_blockEnd .if_).bind fun _ _ _ =>
            inStep_pure (show CaseAlike (c, b, .done) (c', b', .done) from ⟨hc, hb, rfl⟩)
          refine inStep_sees_bind (InStep.at ?_ _) (inStep_sees_bind (InStep.at ?_ _) ?_)
          · exact inStep_sees_bind (hbranch.at _) hbranch
          · exact hbranch
          · exact hclosed
      · refine (inStep_inlineBody hsub).bind fun b b' hb => ?_
        exact (inStep_afterCase hsub (ih n' .elif)).bind fun r r' hr => inStep_pure ⟨hc, hb, hr⟩

theorem inStep_conditional (hsub : sub.InStep sub') (n n' : Nat) :
    InStep Expr.Alike (conditional sub n) (conditional sub' n') := by
  refine inStep_position_bind fun _ _ => (inStep_ifCase hsub n n' .if_).bind ?_
  rintro ⟨c, b, r⟩ ⟨c', b', r'⟩ ⟨hc, hb, hr⟩
  exact inStep_pure (by simp_all only [Expr.Alike, Expr.relocate])

theorem inStep_step (hsub : sub.InStep sub') :
    InStep Expr.StepAlike (step sub) (step sub') := by
  refine inStep_sees_bind ?_ (inStep_pure rfl)
  refine inStepAt_advance_bind rfl fun _ _ => hsub.expression.bind fun e e' he => ?_
  exact inStep_pure (by simp only [Expr.StepAlike, Expr.relocateStep, he])

theorem inStep_countedLoop (hsub : sub.InStep sub') :
    InStep Expr.Alike (countedLoop sub) (countedLoop sub') := by
  refine (inStep_keyword _).bind fun _ _ _ => inStep_expectIdentifier.bind ?_
  rintro var _ rfl
  refine (inStep_symbol _).bind fun _ _ _ => hsub.expression.bind fun start start' hstart => ?_
  refine (inStep_keyword _).bind fun _ _ _ => hsub.expression.bind fun stop stop' hstop => ?_
  refine (inStep_step hsub).bind fun by_ by_' hby => (inStep_keyword _).bind fun _ _ _ => ?_
  refine (inStep_body hsub _).bind fun b b' hb => inStep_pure ?_
  simp only [Expr.Alike, Expr.relocate, hstart, hstop, hb]
  rw [hby]

theorem inStep_conditionalLoop (hsub : sub.InStep sub') :
    InStep Expr.Alike (conditionalLoop sub) (conditionalLoop sub') := by
  refine (inStep_keyword _).bind fun _ _ _ => hsub.expression.bind fun c c' hc => ?_
  refine (inStep_keyword _).bind fun _ _ _ => (inStep_body hsub _).bind fun b b' hb => ?_
  exact inStep_pure (by simp only [Expr.Alike, Expr.relocate, hc, hb])

theorem inStep_optionalName : InStep Eq optionalName optionalName := by
  refine inStep_peek_bind fun token => ?_
  split
  · exact inStepAt_advance_bind rfl fun _ _ => inStep_pure rfl
  · exact (inStep_pure rfl).at _

theorem inStep_functionBody (hsub : sub.InStep sub') :
    InStep Body.Alike (functionBody sub) (functionBody sub') := by
  refine inStep_sees_bind ?_ (inStep_sees_bind ?_ (inStep_unexpected _))
  · exact inStepAt_advance_bind rfl fun _ _ => inStep_inlineBody hsub
  · exact (inStep_closedBlock hsub .function).at _

theorem inStep_functionDefinition (hsub : sub.InStep sub') (n n' : Nat) :
    InStep Expr.Alike (functionDefinition sub n) (functionDefinition sub' n') := by
  refine (inStep_keyword _).bind fun _ _ _ => inStep_optionalName.bind ?_
  rintro name _ rfl
  refine (inStep_expect (.symbol .lparen) rfl _).bind fun _ _ _ => ?_
  refine (inStep_separated .rparen inStep_expectIdentifier n n').bind fun params params' hparams => ?_
  rw [List.forall₂_eq_eq_eq] at hparams
  subst hparams
  refine (inStep_functionBody hsub).bind fun b b' hb => ?_
  exact inStep_pure (by simp only [Expr.Alike, Expr.relocate, hb])

theorem inStep_grouping (hsub : sub.InStep sub') :
    InStep Expr.Alike (grouping sub) (grouping sub') :=
  (inStep_symbol _).bind fun _ _ _ => hsub.expression.bind fun _ _ he =>
    (inStep_symbol _).bind fun _ _ _ => inStep_pure he

theorem inStep_listLiteral (hsub : sub.InStep sub') (n n' : Nat) :
    InStep Expr.Alike (listLiteral sub n) (listLiteral sub' n') := by
  refine (inStep_symbol _).bind fun _ _ _ => ?_
  refine (inStep_separated _ hsub.expression n n').bind fun es es' hes => inStep_pure ?_
  have hall := allAlike_of_forall₂ hes
  simp only [Expr.Alike, Expr.relocate]
  rw [hall]

theorem inStepAt_number (token : Token) (hcontent : token.isContent = true) (text : String) :
    InStepAt token Expr.Alike (numberLiteral text) (numberLiteral text) := by
  unfold numberLiteral
  split
  · exact inStepAt_advance_bind hcontent fun _ _ => inStep_pure rfl
  · exact (inStep_unexpected _).at _

theorem inStep_atom (hsub : sub.InStep sub') (n n' : Nat) :
    InStep Expr.Alike (atom sub n) (atom sub' n') := by
  refine inStep_peek_bind fun token => ?_
  split
  · next text => exact inStepAt_number (.int text) rfl text
  · next text => exact inStepAt_number (.float text) rfl text
  · exact inStepAt_advance_bind rfl fun _ _ => inStep_pure rfl
  · exact inStepAt_advance_bind rfl fun _ _ => inStep_pure rfl
  · exact (inStep_grouping hsub).at _
  · exact (inStep_listLiteral hsub n n').at _
  · exact (inStep_conditional hsub n n').at _
  · exact (inStep_countedLoop hsub).at _
  · exact (inStep_conditionalLoop hsub).at _
  · exact (inStep_functionDefinition hsub n n').at _
  · exact (inStep_unexpected _).at _

theorem inStep_call (hsub : sub.InStep sub') (n n' : Nat) :
    InStep Expr.Alike (call sub n) (call sub' n') := by
  refine (inStep_atom hsub n n').bind fun f f' hf => inStep_sees_bind ?_ (inStep_pure hf)
  refine inStepAt_advance_bind rfl fun _ _ => ?_
  refine (inStep_separated _ hsub.expression n n').bind fun es es' hes => inStep_pure ?_
  have hall := allAlike_of_forall₂ hes
  simp only [Expr.Alike, Expr.relocate, hf]
  rw [hall]

theorem inStep_factor (hsub : sub.InStep sub') (n n' : Nat) :
    InStep Expr.Alike (factor sub n) (factor sub' n') := by
  induction n generalizing n' with
  | zero => exact inStep_exhausted
  | succ n ih =>
    cases n' with
    | zero => exact inStep_exhausted'
    | succ n' =>
      refine inStep_peek_bind fun token => ?_
      split
      · next op hop =>
        refine inStepAt_advance_bind (Token.isContent_iff.mpr ⟨?_, ?_⟩) fun _ _ =>
          (ih n').bind fun e e' he => ?_
        · rintro rfl
          cases hop
        · rintro rfl
          cases hop
        · exact inStep_pure (by simp only [Expr.Alike, Expr.relocate, he])
      · refine InStep.at ?_ _
        exact (inStep_call hsub _ _).bind fun _ _ hbase => inStep_chain _ (ih n') _ _ hbase

theorem inStep_sum (hsub : sub.InStep sub') (n n' : Nat) :
    InStep Expr.Alike (sum sub n) (sum sub' n') :=
  inStep_leftAssociative _ (inStep_leftAssociative _ (inStep_factor hsub n n') n n') n n'

theorem inStep_comparison (hsub : sub.InStep sub') (n n' : Nat) :
    InStep Expr.Alike (comparison sub n) (comparison sub' n') := by
  induction n generalizing n' with
  | zero => exact inStep_exhausted
  | succ n ih =>
    cases n' with
    | zero => exact inStep_exhausted'
    | succ n' =>
      refine inStep_sees_bind ?_ (inStep_leftAssociative _ (inStep_sum hsub _ _) _ _)
      refine inStepAt_advance_bind rfl fun _ _ => (ih n').bind fun e e' he => ?_
      exact inStep_pure (by simp only [Expr.Alike, Expr.relocate, he])

theorem inStep_assignment (hsub : sub.InStep sub') :
    InStep Expr.Alike (assignment sub) (assignment sub') := by
  refine (inStep_keyword _).bind fun _ _ _ => inStep_expectIdentifier.bind ?_
  rintro name _ rfl
  refine (inStep_symbol _).bind fun _ _ _ => hsub.expression.bind fun e e' he => ?_
  exact inStep_pure (by simp only [Expr.Alike, Expr.relocate, he])

theorem inStep_expressionOver (hsub : sub.InStep sub') (n n' : Nat) :
    InStep Expr.Alike (expressionOver sub n) (expressionOver sub' n') := by
  refine inStep_sees_bind ((inStep_assignment hsub).at _) (InStep.expecting _ ?_)
  exact inStep_leftAssociative _ (inStep_comparison hsub n n') n n'

/-! ### Statements and programs -/

theorem inStep_furtherStatements {ex ex' : Rule Expr} (h : InStep Expr.Alike ex ex')
    (n n' : Nat) :
    InStep (List.Forall₂ Expr.Alike) (Predictive.furtherStatements ex n)
      (Predictive.furtherStatements ex' n') := by
  induction n generalizing n' with
  | zero => exact inStep_exhausted
  | succ n ih =>
    cases n' with
    | zero => exact inStep_exhausted'
    | succ n' =>
      refine inStep_skipNewlines.bind fun count count' hcount => ?_
      by_cases hnone : count = 0
      · rw [if_pos hnone, if_pos (hcount.mpr hnone)]
        exact inStep_pure .nil
      rw [if_neg hnone, if_neg (mt hcount.mp hnone)]
      refine inStep_peek_bind fun token => InStep.at ?_ _
      split
      · exact h.bind fun e e' he => (ih n').bind fun es es' hes => inStep_pure (.cons he hes)
      · exact inStep_pure .nil

theorem catchUp_statementsOver {ex ex' : Rule Expr} (h : InStep Expr.Alike ex ex') (n n' : Nat) :
    CatchUp Expr.Alike (Predictive.statementsOver ex n) (Predictive.statementsOver ex' n') := by
  refine catchUp_skipNewlines.bind fun _ _ _ => h.bind fun e e' he => ?_
  refine (inStep_furtherStatements h n n').bind fun es es' hes => inStep_pure ?_
  have hall := allAlike_of_forall₂ hes
  simp only [Expr.Alike, Expr.relocate, Expr.relocateAll, he]
  rw [hall]

theorem inStep_expression (n n' : Nat) :
    InStep Expr.Alike (Predictive.expression n) (Predictive.expression n') := by
  induction n generalizing n' with
  | zero => exact inStep_exhausted
  | succ n ih =>
    cases n' with
    | zero => exact inStep_exhausted'
    | succ n' =>
      exact inStep_expressionOver ⟨ih n', catchUp_statementsOver (ih n') n n'⟩ n n'

theorem inStep_nested (n n' : Nat) :
    (Predictive.nested n).InStep (Predictive.nested n') :=
  ⟨inStep_expression n n', catchUp_statementsOver (inStep_expression n n') n n'⟩

end Grammar

/-- What two lists of tokens are read as if their layout is the only difference. -/
inductive ReadAlike : Outcome SyntaxError Expr → Outcome SyntaxError Expr → Prop
  /-- Trees that are the same up to places. -/
  | value {tree tree' : Expr} (like : tree.Alike tree') : ReadAlike (.value tree) (.value tree')
  /-- Errors that are the same up to their places. -/
  | error {e e' : SyntaxError} (like : e.Alike e') : ReadAlike (.error e) (.error e')

theorem Grammar.programOver_alike {sub sub' : Nested} (hsub : sub.InStep sub') {c c' : Cursor}
    (h : Abreast 0 0 c c') :
    (programOver sub c).1 = .exhausted ∨ (programOver sub' c').1 = .exhausted ∨
      ReadAlike (programOver sub c).1 (programOver sub' c').1 := by
  have hskipped := h.skipNewlines
  rw [programOver_apply, programOver_apply, hskipped.peek]
  generalize c.skipNewlines.2 = c₁, c'.skipNewlines.2 = c₁' at hskipped
  by_cases hempty : c₁.peek = .eof
  · rw [if_pos hempty, if_pos hempty]
    exact .inr (.inr (.value rfl))
  rw [if_neg hempty, if_neg hempty]
  have hend := hsub.statements 0 0 c₁ c₁' (hskipped.afterBreaks (Nat.zero_le _) (Nat.zero_le _))
  generalize sub.statements c₁ = reply, sub'.statements c₁' = reply' at hend
  cases hend with
  | @value tree tree' d d' like abreast =>
    right; right
    simp only [abreast.peek]
    by_cases hended : d.peek = .eof
    · rw [if_pos hended, if_pos hended]
      exact .value like
    · rw [if_neg hended, if_neg hended, failOr_of_clear _ abreast.fresh.clear,
        failOr_of_clear _ abreast.fresh'.clear]
      exact .error (abreast.unexpected _)
  | error like abreast => exact .inr (.inr (.error like))
  | exhausted => exact .inl rfl
  | exhausted' => exact .inr (.inl rfl)

/-- The parser that looks ahead gives what the other gives. -/
theorem predict_outcome {tokens : List Located} (hend : EndsInput tokens)
    (hlegible : ∀ t ∈ tokens, t.token.Legible) : (predict tokens).1 = (parse tokens).1 := by
  have hlegible' : (Cursor.ofTokens tokens).Legible := by
    intro t ht
    exact hlegible t (List.mem_toArray.mp ht)
  have htwin : Twin (.ofTokens tokens) (.ofTokens tokens) := ⟨rfl, rfl, rfl, rfl⟩
  have hagrees := Grammar.programOver_agrees (Grammar.agree_nested (Grammar.bound tokens.length))
    (ended_ofTokens hend) hlegible' htwin rfl
  exact (hagrees.resolve_left (parse_ne_exhausted hend)).1

/-- **Layout does not matter to the parser.** Tokens that differ only in their places and in the
lengths of runs of separators are read alike. -/
theorem parse_alike {ts ts' : List Located} (hend : EndsInput ts) (hend' : EndsInput ts')
    (hlegible : ∀ t ∈ ts, t.token.Legible) (hlegible' : ∀ t ∈ ts', t.token.Legible)
    (hsame : outline ts' = outline ts) : ReadAlike (parse ts).1 (parse ts').1 := by
  have hstart : Abreast 0 0 (.ofTokens ts) (.ofTokens ts') :=
    ⟨fresh_ofTokens hend, fresh_ofTokens hend', by rw [rest_ofTokens, rest_ofTokens, hsame],
      .inl ⟨Nat.zero_le _, Nat.zero_le _⟩⟩
  have hboth := Grammar.programOver_alike
    (Grammar.inStep_nested (Grammar.bound ts.length) (Grammar.bound ts'.length)) hstart
  rw [← predict_outcome hend hlegible, ← predict_outcome hend' hlegible']
  refine (hboth.resolve_left ?_).resolve_left ?_
  · exact fun hbound => parse_ne_exhausted hend ((predict_outcome hend hlegible).symm.trans hbound)
  · exact fun hbound =>
      parse_ne_exhausted hend' ((predict_outcome hend' hlegible').symm.trans hbound)

end LineScript
