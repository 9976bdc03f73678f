import LineScript.Proofs.Grammar.Steps

/-!
# Every rule makes headway within the tokens

Reading stays within the tokens and comes to an end because every rule that succeeds has read
something. The end of input is the token on which nothing moves, and no rule that gives an
expression succeeds there.

  * `Cursor.Bounded`: the cursor is within its tokens, and the last of these, if there are any, is
    the end of input.
  * `Rule.AdvancesAt rule c`: if the rule succeeds from `c` on, the cursor ends further on.
  * `Rule.MovesOn`: the rule is a walk and moves on wherever it succeeds. `Rule.MovesFrom token` asks
    this only where the current token is `token`.
  * `Grammar.expressionRules`: the rules that give an expression or a list of statements.

**Key idea.** A rule moves on from its first token or its first part, and walks never go back before
their beginning. So it is enough to find one token other than the end of input, or one part that
moves on, in every rule; chains and blocks come after it.
-/

namespace LineScript

/-- The cursor is within the tokens, and these end with the end of input. -/
structure Cursor.Bounded (c : Cursor) : Prop where
  /-- The cursor is within the tokens. -/
  within : c.Within
  /-- The last token, if there is one, is the end of input. -/
  last : ∀ t ∈ c.tokens.back?, t.token = .eof

namespace Cursor

variable {c d : Cursor}

theorem Follows.bounded (h : c.Follows d) (hc : c.Bounded) : d.Bounded := by
  refine ⟨h.within, ?_⟩
  rw [h.tokens]
  exact hc.last

/-- There is a token at the cursor, and with it an end of input, or there are no tokens. -/
theorem Bounded.ended_or (h : c.Bounded) : c.Ended ∨ c.tokens = #[] := by
  rcases h.within with hinside | ⟨hnone, -⟩
  · rcases hlast : c.tokens.back? with _ | ⟨token, p⟩
    · exact .inr (Array.back?_eq_none_iff.mp hlast)
    · have heof : token = .eof := h.last _ hlast
      exact .inl ⟨hinside, p, heof ▸ hlast⟩
  · exact .inr (Array.eq_empty_of_size_eq_zero hnone)

theorem peek_of_empty (h : c.tokens = #[]) : c.peek = .eof := by
  simp [peek, current, h]

/-- Any token but the end of input is moved past. -/
theorem Bounded.index_lt_advance (h : c.Bounded) (hne : c.peek ≠ .eof) :
    c.index < c.advance.index := by
  rcases h.ended_or with hended | hnone
  · exact hended.index_lt_advance hne
  · exact absurd (peek_of_empty hnone) hne

/-- Skipping separators stops because there is no further one, and not at a limit. -/
theorem Bounded.peek_skipNewlines (h : c.Bounded) : c.skipNewlines.2.peek ≠ .newline := by
  rcases h.ended_or with hended | hnone
  · have hended' := hended.reaches_skipNewlines.ended hended
    have hrest := hended.rest_skipNewlines
    rw [hended'.rest_eq] at hrest
    intro hnewline
    -- the token after the separators would be one of them
    have hkept : c.skipNewlines.2.current.isNewline = false := by
      have hhead := List.head?_dropWhile_not Located.isNewline c.rest
      rw [← hrest] at hhead
      simpa using hhead
    rw [Located.isNewline, decide_eq_false_iff_not] at hkept
    exact hkept hnewline
  · have hstill : c.skipNewlines.2 = c := by
      rw [skipNewlines, hnone]
      rfl
    rw [hstill, peek_of_empty hnone]
    decide

end Cursor

/-! ### Rules that move on -/

namespace Rule

variable {α β : Type}

/-- If the rule succeeds from `c` on, it ends further on. -/
def AdvancesAt (rule : Rule α) (c : Cursor) : Prop :=
  ∀ a d, rule c = (.value a, d) → c.index < d.index

/-- The rule is a walk and moves on wherever it succeeds. -/
structure MovesOn (rule : Rule α) : Prop where
  /-- The rule is a walk. -/
  walk : rule.IsWalk
  /-- The rule moves on. -/
  advances : ∀ c : Cursor, c.Bounded → rule.AdvancesAt c

/-- The rule is a walk and moves on where it succeeds at the given token. -/
structure MovesFrom (token : Token) (rule : Rule α) : Prop where
  /-- The rule is a walk. -/
  walk : rule.IsWalk
  /-- The rule moves on. -/
  advances : ∀ c : Cursor, c.Bounded → c.peek = token → rule.AdvancesAt c

section combinators

variable {c : Cursor} {rule rule' : Rule α} {token : Token}

theorem AdvancesAt.bind {next : α → Rule β} (hc : c.Bounded) (h : rule.AdvancesAt c)
    (hrule : rule.IsWalk) (hnext : ∀ a, (next a).IsWalk) : (rule >>= next).AdvancesAt c := by
  intro b e hrun
  obtain ⟨a, d, hfirst, hsecond⟩ := Run.bind_eq_value_iff.mp hrun
  have hwithin := (hrule.follows hc.within hfirst).within
  exact Nat.lt_of_lt_of_le (h a d hfirst) ((hnext a).follows hwithin hsecond).index_le

/-- What comes after a rule that moves on does not take the move back. -/
theorem MovesOn.bind {next : α → Rule β} (h : rule.MovesOn) (hnext : ∀ a, (next a).IsWalk) :
    (rule >>= next).MovesOn :=
  ⟨h.walk.bind hnext, fun c hc => (h.advances c hc).bind hc h.walk hnext⟩

/-- What comes before a rule that moves on does not go back. -/
theorem IsWalk.bind_movesOn {next : α → Rule β} (h : rule.IsWalk)
    (hnext : ∀ a, (next a).MovesOn) : (rule >>= next).MovesOn := by
  refine ⟨h.bind fun a => (hnext a).walk, ?_⟩
  intro c hc b e hrun
  obtain ⟨a, d, hfirst, hsecond⟩ := Run.bind_eq_value_iff.mp hrun
  have hfollows := h.follows hc.within hfirst
  have hadvances := (hnext a).advances d (hfollows.bounded hc)
  exact Nat.lt_of_le_of_lt hfollows.index_le (hadvances b e hsecond)

theorem MovesOn.from (h : rule.MovesOn) (token : Token) : rule.MovesFrom token :=
  ⟨h.walk, fun c hc _ => h.advances c hc⟩

/-- A rule that moves on from every token moves on. -/
theorem movesOn_peek_bind {next : Token → Rule β} (h : ∀ token, (next token).MovesFrom token) :
    Rule.MovesOn (Run.look Cursor.peek >>= next) :=
  ⟨(isWalk_look _).bind fun token => (h token).walk,
    fun c hc => (h c.peek).advances c hc rfl⟩

/-- A rule that goes on in one way at a token, and in another at any other one. -/
theorem movesOn_sees_bind (h : rule.MovesFrom token) (h' : rule'.MovesOn) :
    Rule.MovesOn (do if ← sees token then rule else rule') := by
  refine ⟨(isWalk_sees _).bind fun _ => h.walk.ite h'.walk, ?_⟩
  intro c hc
  show AdvancesAt (if decide (c.peek = token) = true then rule else rule') c
  split
  · next hpeek => exact h.advances c hc (of_decide_eq_true hpeek)
  · exact h'.advances c hc

theorem movesFrom_advance_bind {next : Located → Rule β} (hne : token ≠ .eof)
    (hnext : ∀ t, (next t).IsWalk) : (advance >>= next).MovesFrom token := by
  refine ⟨isWalk_advance.bind hnext, ?_⟩
  intro c hc hpeek
  refine AdvancesAt.bind hc ?_ isWalk_advance hnext
  rintro a d ⟨⟩
  exact hc.index_lt_advance (hpeek ▸ hne)

theorem movesOn_exhausted : MovesOn (Run.exhausted : Rule α) := by
  refine ⟨isWalk_exhausted, ?_⟩
  rintro c - a d ⟨⟩

theorem movesOn_unexpected (expected : String) : MovesOn (unexpected expected : Rule α) := by
  refine ⟨isWalk_unexpected expected, ?_⟩
  rintro c - a d ⟨⟩

theorem movesOn_expect (hne : token ≠ .eof) (expected : String) :
    MovesOn (expect token expected) := by
  refine ⟨isWalk_expect token expected, ?_⟩
  intro c hc
  by_cases hpeek : c.peek = token
  · rw [AdvancesAt, expect_of_peek hpeek]
    rintro a d ⟨⟩
    exact hc.index_lt_advance (hpeek ▸ hne)
  · rw [AdvancesAt, expect_of_peek_ne hpeek]
    rintro a d ⟨⟩

theorem movesOn_expectKeyword (word : Keyword) : MovesOn (expectKeyword word) := by
  have hne : Token.keyword word ≠ .eof := nofun
  exact movesOn_expect hne _

theorem movesOn_expectSymbol (mark : Symbol) : MovesOn (expectSymbol mark) := by
  have hne : Token.symbol mark ≠ .eof := nofun
  exact movesOn_expect hne _

theorem MovesOn.expecting (expected : String) (h : rule.MovesOn) :
    (expecting expected rule).MovesOn := by
  refine ⟨h.walk.expecting expected, ?_⟩
  intro c hc a d hrun
  rw [Rule.expecting] at hrun
  rcases hr : rule c with ⟨b | e | _, e'⟩ <;> rw [hr] at hrun
  · cases hrun
    exact h.advances c hc a d hr
  · cases hrun
  · cases hrun

end combinators

end Rule

/-- Both rules move on. -/
structure Nested.MoveOn (sub : Nested) : Prop where
  /-- One expression. -/
  expression : sub.expression.MovesOn
  /-- The statements of a block. -/
  statements : sub.statements.MovesOn

/-! ### The rules of the grammar -/

namespace Grammar

open Rule Run

section rules

variable {sub : Nested} (hsub : sub.MoveOn) {operand : Rule Expr}
include hsub

omit hsub in
theorem isWalk_chain (accepts : BinaryOperator → Bool) (hoperand : operand.IsWalk) (n : Nat)
    (left : Expr) : (chain accepts operand n left).IsWalk := by
  induction n generalizing left with
  | zero => exact isWalk_exhausted
  | succ n ih =>
    refine (isWalk_look _).bind fun token => ?_
    split
    · exact isWalk_advance.bind fun _ => hoperand.bind fun _ => ih _
    · exact isWalk_pure _

omit hsub in
theorem movesOn_leftAssociative (accepts : BinaryOperator → Bool) (hoperand : operand.MovesOn)
    (n : Nat) : (leftAssociative accepts operand n).MovesOn :=
  hoperand.bind fun first => isWalk_chain accepts hoperand.walk n first

theorem isWalk_block : (block sub).IsWalk :=
  (isWalk_expect _ _).bind fun _ => hsub.statements.walk.bind fun _ => isWalk_pure _

omit hsub in
theorem isWalk_blockEnd (construct : Keyword) : (blockEnd construct).IsWalk :=
  (isWalk_sees _).bind fun _ =>
    (isWalk_advance.bind fun _ => isWalk_pure _).ite (isWalk_failOr _)

theorem isWalk_inlineBody : (inlineBody sub).IsWalk :=
  hsub.expression.walk.bind fun _ => isWalk_pure _

theorem isWalk_closedBlock (construct : Keyword) :
    Rule.IsWalk (do
      let b ← block sub
      blockEnd construct
      pure b) :=
  (isWalk_block hsub).bind fun _ => (isWalk_blockEnd construct).bind fun _ => isWalk_pure _

theorem isWalk_body (construct : Keyword) : (body sub construct).IsWalk :=
  (isWalk_sees _).bind fun _ => (isWalk_closedBlock hsub construct).ite (isWalk_inlineBody hsub)

theorem isWalk_afterCase {case : Rule (Expr × Body × Chain)} (hcase : case.IsWalk) :
    (afterCase sub case).IsWalk := by
  refine (isWalk_sees _).bind fun _ => .ite ?_ ((isWalk_sees _).bind fun _ => .ite ?_ ?_)
  · exact hcase.bind fun _ => isWalk_pure _
  · exact isWalk_advance.bind fun _ => (isWalk_body hsub .else_).bind fun _ => isWalk_pure _
  · exact isWalk_pure _

theorem movesOn_ifCase (n : Nat) (word : Keyword) : (ifCase sub n word).MovesOn := by
  induction n generalizing word with
  | zero => exact movesOn_exhausted
  | succ n ih =>
    have hrest := isWalk_afterCase hsub (ih .elif).walk
    -- the keyword is read first, whatever the case goes on with
    refine (movesOn_expectKeyword word).bind fun _ => hsub.expression.walk.bind fun condition => ?_
    refine (isWalk_expect _ _).bind fun _ => (isWalk_sees _).bind fun _ => .ite ?_ ?_
    · refine (isWalk_block hsub).bind fun b => (isWalk_sees _).bind fun _ => .ite ?_ ?_
      · exact isWalk_advance.bind fun _ => isWalk_pure _
      · refine (isWalk_sees _).bind fun _ => (isWalk_sees _).bind fun _ => .ite ?_ ?_
        · exact hrest.bind fun _ => isWalk_pure _
        · exact (isWalk_blockEnd _).bind fun _ => isWalk_pure _
    · exact (isWalk_inlineBody hsub).bind fun b => hrest.bind fun _ => isWalk_pure _

theorem movesOn_conditional (n : Nat) : (conditional sub n).MovesOn :=
  (isWalk_look _).bind_movesOn fun _ => (movesOn_ifCase hsub n .if_).bind fun _ => isWalk_pure _

theorem isWalk_step : (step sub).IsWalk := by
  refine (isWalk_sees _).bind fun _ => .ite ?_ (isWalk_pure _)
  exact isWalk_advance.bind fun _ => hsub.expression.walk.bind fun _ => isWalk_pure _

theorem movesOn_countedLoop : (countedLoop sub).MovesOn := by
  refine (movesOn_expectKeyword .for_).bind fun p => isWalk_expectIdentifier.bind fun var => ?_
  refine (isWalk_expect _ _).bind fun _ => hsub.expression.walk.bind fun start => ?_
  refine (isWalk_expect _ _).bind fun _ => hsub.expression.walk.bind fun stop => ?_
  refine (isWalk_step hsub).bind fun by_ => (isWalk_expect _ _).bind fun _ => ?_
  exact (isWalk_body hsub .for_).bind fun _ => isWalk_pure _

theorem movesOn_conditionalLoop : (conditionalLoop sub).MovesOn := by
  refine (movesOn_expectKeyword .while_).bind fun p => ?_
  refine hsub.expression.walk.bind fun condition => (isWalk_expect _ _).bind fun _ => ?_
  exact (isWalk_body hsub .while_).bind fun _ => isWalk_pure _

omit hsub in
theorem isWalk_optionalName : optionalName.IsWalk := by
  refine (isWalk_look _).bind fun token => ?_
  split
  · exact isWalk_advance.bind fun _ => isWalk_pure _
  · exact isWalk_pure _

theorem isWalk_functionBody : (functionBody sub).IsWalk := by
  refine (isWalk_sees _).bind fun _ => .ite ?_ ((isWalk_sees _).bind fun _ => .ite ?_ ?_)
  · exact isWalk_advance.bind fun _ => isWalk_inlineBody hsub
  · exact isWalk_closedBlock hsub .function
  · exact isWalk_unexpected _

theorem movesOn_functionDefinition (n : Nat) : (functionDefinition sub n).MovesOn := by
  refine (movesOn_expectKeyword .function).bind fun p => isWalk_optionalName.bind fun name => ?_
  refine (isWalk_expect _ _).bind fun _ => ?_
  refine (isWalk_separated .rparen isWalk_expectIdentifier n).bind fun params => ?_
  exact (isWalk_functionBody hsub).bind fun _ => isWalk_pure _

theorem movesOn_grouping : (grouping sub).MovesOn := by
  refine (movesOn_expectSymbol .lparen).bind fun _ => hsub.expression.walk.bind fun _ => ?_
  exact (isWalk_expect _ _).bind fun _ => isWalk_pure _

theorem movesOn_listLiteral (n : Nat) : (listLiteral sub n).MovesOn :=
  (movesOn_expectSymbol .lbracket).bind fun _ =>
    (isWalk_separated _ hsub.expression.walk n).bind fun _ => isWalk_pure _

omit hsub in
theorem movesFrom_numberLiteral {token : Token} (hne : token ≠ .eof) (text : String) :
    (numberLiteral text).MovesFrom token := by
  unfold numberLiteral
  split
  · exact movesFrom_advance_bind hne fun _ => isWalk_pure _
  · exact (movesOn_unexpected _).from token

theorem movesOn_atom (n : Nat) : (atom sub n).MovesOn := by
  refine movesOn_peek_bind fun token => ?_
  split
  · exact movesFrom_numberLiteral (by simp) _
  · exact movesFrom_numberLiteral (by simp) _
  · exact movesFrom_advance_bind nofun fun _ => isWalk_pure _
  · exact movesFrom_advance_bind nofun fun _ => isWalk_pure _
  · exact (movesOn_grouping hsub).from _
  · exact (movesOn_listLiteral hsub n).from _
  · exact (movesOn_conditional hsub n).from _
  · exact (movesOn_countedLoop hsub).from _
  · exact (movesOn_conditionalLoop hsub).from _
  · exact (movesOn_functionDefinition hsub n).from _
  · exact (movesOn_unexpected _).from token

theorem movesOn_call (n : Nat) : (call sub n).MovesOn := by
  refine (movesOn_atom hsub n).bind fun callee => ?_
  refine (isWalk_sees _).bind fun _ => .ite ?_ (isWalk_pure _)
  refine isWalk_advance.bind fun _ => ?_
  exact (isWalk_separated _ hsub.expression.walk n).bind fun _ => isWalk_pure _

theorem movesOn_power (hexponent : operand.IsWalk) (n : Nat) : (power sub operand n).MovesOn :=
  (movesOn_call hsub n).bind fun base => isWalk_chain _ hexponent n base

theorem movesOn_factor (n : Nat) : (factor sub n).MovesOn := by
  induction n with
  | zero => exact movesOn_exhausted
  | succ n ih =>
    refine movesOn_peek_bind fun token => ?_
    split
    · next op hop =>
      have hne : token ≠ .eof := by
        rintro rfl
        cases hop
      exact movesFrom_advance_bind hne fun _ => ih.walk.bind fun _ => isWalk_pure _
    · exact (movesOn_power hsub ih.walk (n + 1)).from token

theorem movesOn_product (n : Nat) : (product sub n).MovesOn :=
  movesOn_leftAssociative _ (movesOn_factor hsub n) n

theorem movesOn_sum (n : Nat) : (sum sub n).MovesOn :=
  movesOn_leftAssociative _ (movesOn_product hsub n) n

theorem movesOn_comparison (n : Nat) : (comparison sub n).MovesOn := by
  induction n with
  | zero => exact movesOn_exhausted
  | succ n ih =>
    refine movesOn_sees_bind ?_ (movesOn_leftAssociative _ (movesOn_sum hsub _) _)
    exact movesFrom_advance_bind nofun fun _ => ih.walk.bind fun _ => isWalk_pure _

theorem movesOn_logical (n : Nat) : (logical sub n).MovesOn :=
  movesOn_leftAssociative _ (movesOn_comparison hsub n) n

theorem movesOn_assignment : (assignment sub).MovesOn := by
  refine (movesOn_expectKeyword .var).bind fun p => isWalk_expectIdentifier.bind fun name => ?_
  exact (isWalk_expect _ _).bind fun _ => hsub.expression.walk.bind fun _ => isWalk_pure _

theorem movesOn_expressionOver (n : Nat) : (expressionOver sub n).MovesOn :=
  movesOn_sees_bind ((movesOn_assignment hsub).from _) ((movesOn_logical hsub n).expecting _)

end rules

section statements

variable {ex : Rule Expr} (hex : ex.MovesOn)
include hex

theorem isWalk_furtherStatements (n : Nat) : (furtherStatements ex n).IsWalk := by
  induction n with
  | zero => exact isWalk_exhausted
  | succ n ih =>
    refine isWalk_skipNewlines.bind fun _ => .ite (isWalk_pure _) ?_
    refine hex.walk.attempt.bind fun reply => ?_
    cases reply with
    | some e => exact ih.bind fun _ => isWalk_pure _
    | none => exact isWalk_pure _

/-- A list of statements moves on with its first one. -/
theorem movesOn_statementsOver (n : Nat) : (statementsOver ex n).MovesOn :=
  isWalk_skipNewlines.bind_movesOn fun _ => hex.bind fun _ =>
    (isWalk_furtherStatements hex n).bind fun _ => isWalk_pure _

end statements

theorem movesOn_nested (n : Nat) : (nested n).MoveOn := by
  have hexpression : (expression n).MovesOn := by
    induction n with
    | zero => exact movesOn_exhausted
    | succ n ih => exact movesOn_expressionOver ⟨ih, movesOn_statementsOver ih n⟩ n
  exact ⟨hexpression, movesOn_statementsOver hexpression n⟩

theorem isWalk_programOver {sub : Nested} (hsub : sub.MoveOn) : (programOver sub).IsWalk := by
  refine isWalk_skipNewlines.bind fun _ => (isWalk_sees _).bind fun _ => .ite ?_ ?_
  · exact (isWalk_look _).bind fun _ => isWalk_pure _
  · refine hsub.statements.walk.bind fun tree => (isWalk_sees _).bind fun _ => .ite ?_ ?_
    · exact (isWalk_record _).bind fun _ => isWalk_pure _
    · exact isWalk_failOr _

/-- The rules that give an expression or a list of statements: nested at most `n` deep, with chains
of at most `m` links and exponents of at most `k` signs. -/
def expressionRules (n m k : Nat) : List (Rule Expr) :=
  let sub := nested n
  [sub.expression, sub.statements, assignment sub, logical sub m, comparison sub m, sum sub m,
    product sub m, factor sub m, power sub (factor sub k) m, call sub m, atom sub m, grouping sub,
    listLiteral sub m, conditional sub m, countedLoop sub, conditionalLoop sub,
    functionDefinition sub m]

theorem movesOn_of_mem {n m k : Nat} {rule : Rule Expr} (h : rule ∈ expressionRules n m k) :
    rule.MovesOn := by
  have hsub := movesOn_nested n
  simp only [expressionRules, List.mem_cons, List.not_mem_nil, or_false] at h
  rcases h with rfl | rfl | rfl | rfl | rfl | rfl | rfl | rfl | rfl | rfl | rfl | rfl | rfl | rfl |
    rfl | rfl | rfl
  · exact hsub.expression
  · exact hsub.statements
  · exact movesOn_assignment hsub
  · exact movesOn_logical hsub m
  · exact movesOn_comparison hsub m
  · exact movesOn_sum hsub m
  · exact movesOn_product hsub m
  · exact movesOn_factor hsub m
  · exact movesOn_power hsub (movesOn_factor hsub k).walk m
  · exact movesOn_call hsub m
  · exact movesOn_atom hsub m
  · exact movesOn_grouping hsub
  · exact movesOn_listLiteral hsub m
  · exact movesOn_conditional hsub m
  · exact movesOn_countedLoop hsub
  · exact movesOn_conditionalLoop hsub
  · exact movesOn_functionDefinition hsub m

end Grammar

/-! ### Whole lists of tokens -/

theorem within_ofTokens (tokens : List Located) : (Cursor.ofTokens tokens).Within := by
  cases tokens with
  | nil => exact .inr ⟨rfl, rfl⟩
  | cons t ts => exact .inl (by simp [Cursor.ofTokens])

/-- A cursor in tokens that are none, or end with the end of input. -/
theorem Cursor.Within.bounded {c : Cursor} {tokens : List Located} (hc : c.Within)
    (htokens : c.tokens = tokens.toArray) (h : tokens = [] ∨ EndsInput tokens) : c.Bounded := by
  refine ⟨hc, ?_⟩
  rw [htokens]
  rcases h with rfl | ⟨init, p, rfl⟩
  · nofun
  · simp

/-- No tokens at all are an empty program. -/
theorem parse_nil : (parse []).1 = .value (.list [] .start) := rfl

open Grammar in
/-- **Reading ends and stays within the tokens.** A list of tokens that is empty or ends with the
end of input is read as a tree or refused with an error. The reading is a walk, and however it is
spelled out as one, the cursor is within the tokens at every step, and an attempt that fails is
given up for a place that is not before its beginning. Wherever the cursor stands, separators are
skipped to the last one, and every rule that gives an expression or a list of statements moves the
cursor on if it succeeds. -/
theorem reading_stays_within_tokens (tokens : List Located)
    (h : tokens = [] ∨ EndsInput tokens) :
    ((∃ tree, (parse tokens).1 = .value tree) ∨ ∃ e, (parse tokens).1 = .error e) ∧
    (programOver (nested (bound tokens.length))).IsWalk ∧
    (∀ w : Walk Expr, w.run = programOver (nested (bound tokens.length)) →
      (∀ c, w.Passes (.ofTokens tokens) c →
        c.index < tokens.length ∨ tokens = [] ∧ c.index = 0) ∧
      ∀ start failed back, w.Rewinds (.ofTokens tokens) start failed back →
        start.index ≤ back.index ∧ back.index ≤ failed.index) ∧
    ∀ c : Cursor, c.tokens = tokens.toArray → c.Within →
      c.skipNewlines.2.peek ≠ .newline ∧
      ∀ n m k, ∀ rule ∈ expressionRules n m k, rule.AdvancesAt c := by
  have hstart := within_ofTokens tokens
  refine ⟨?_, isWalk_programOver (movesOn_nested _), ?_, ?_⟩
  · have hends : (parse tokens).1 ≠ .exhausted := by
      rcases h with rfl | hends
      · rw [parse_nil]
        nofun
      · exact parse_ne_exhausted hends
    rcases hreply : (parse tokens).1 with tree | e | _
    · exact .inl ⟨tree, rfl⟩
    · exact .inr ⟨e, rfl⟩
    · exact absurd hreply hends
  · intro w _
    refine ⟨?_, ?_⟩
    · intro c hpasses
      have hfollows := hpasses.follows hstart
      have hsize : c.tokens.size = tokens.length := by
        rw [hfollows.tokens]
        rfl
      rcases hfollows.within with hinside | ⟨hnone, hindex⟩
      · exact .inl (hsize ▸ hinside)
      · exact .inr ⟨List.eq_nil_of_length_eq_zero (hsize ▸ hnone), hindex⟩
    · intro start failed back hrewinds
      obtain ⟨hback, hle⟩ := hrewinds.back_eq hstart
      omega
  · intro c htokens hc
    have hbounded := hc.bounded htokens h
    exact ⟨hbounded.peek_skipNewlines, fun n m k rule hrule =>
      (movesOn_of_mem hrule).advances c hbounded⟩

/-- A statement, an assignment that breaks off, and more after a first end of input. -/
def brokenOffTokens : List Located :=
  atStart [.identifier "x", .newline, .keyword .var, .identifier "y", .eof, .malformed "=>=", .eof]

open Grammar in
/-- The attempt to read the assignment is given up where it began, and its error is reported. -/
theorem brokenOff_stays_within_tokens :
    EndsInput brokenOffTokens ∧
    (parse brokenOffTokens).1 = .error (.unexpected "'='" .eof .start) ∧
    ((parse brokenOffTokens).2.index = 2 ∧ brokenOffTokens.length = 7) ∧
    (∀ w : Walk Expr, w.run = programOver (nested (bound 7)) →
      (∀ c, w.Passes (.ofTokens brokenOffTokens) c →
        c.index < 7 ∨ brokenOffTokens = [] ∧ c.index = 0) ∧
      ∀ start failed back, w.Rewinds (.ofTokens brokenOffTokens) start failed back →
        start.index ≤ back.index ∧ back.index ≤ failed.index) ∧
    ∀ rule ∈ expressionRules 3 3 3, rule.AdvancesAt (.ofTokens brokenOffTokens) := by
  have hends : EndsInput brokenOffTokens := ⟨brokenOffTokens.dropLast, .start, rfl⟩
  obtain ⟨-, -, hwalks, hcursors⟩ := reading_stays_within_tokens brokenOffTokens (.inr hends)
  refine ⟨hends, rfl, ⟨rfl, rfl⟩, hwalks, ?_⟩
  exact (hcursors (.ofTokens brokenOffTokens) rfl (within_ofTokens _)).2 3 3 3

end LineScript
