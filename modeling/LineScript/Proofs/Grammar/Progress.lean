import LineScript.Proofs.Grammar.Cursor

/-!
# Reading comes to an end

The rules of the grammar carry a number that bounds how deep they nest and how long their chains
get. On tokens that end with the end of input the bound is never reached, and a reading never goes
back before the place where it started.

  * `Rule.RunsAt n rule c`: from `c` on, the rule ends at a cursor that `c` reaches, and if at most
    `n` tokens are left at `c`, it ends with a value or an error.
  * `Rule.Runs n rule`: the same at every ended cursor.
  * `Rule.Commits opens rule`: the rule moves if the current token satisfies `opens`, even if it
    fails later. `Rule.Starts token n rule` is both, for one token.

**Key idea.** The bound of a rule goes down only where a token has been read, and then one token
less is left. So a rule that can go on with bound `m` suffices for `m` tokens, and every rule of the
grammar is obtained from the rules nested in it by steps that keep this balance.
-/

namespace LineScript

namespace Rule

variable {α β : Type}

/-- From `c` on, the rule goes forward, and `n` tokens do not bring it to its bound. -/
def RunsAt (n : Nat) (rule : Rule α) (c : Cursor) : Prop :=
  c.Reaches (rule c).2 ∧ (c.rest.length ≤ n → (rule c).1 ≠ .exhausted)

/-- From every ended cursor, the rule goes forward, and `n` tokens do not bring it to its bound. -/
def Runs (n : Nat) (rule : Rule α) : Prop :=
  ∀ c : Cursor, c.Ended → RunsAt n rule c

/-- At a token that satisfies `opens` the rule moves on, unless it is at its bound. -/
def Commits (opens : Token → Prop) (rule : Rule α) : Prop :=
  ∀ c : Cursor, c.Ended → opens c.peek → (rule c).1 = .exhausted ∨ c.index < (rule c).2.index

/-- The rule goes forward, and it moves if the current token is `token`. -/
structure Starts (token : Token) (n : Nat) (rule : Rule α) : Prop where
  /-- The rule goes forward. -/
  runs : Runs n rule
  /-- At the token the rule moves. -/
  commits : Commits (· = token) rule

section combinators

variable {n m : Nat} {c : Cursor}

theorem Runs.mono {rule : Rule α} (h : Runs m rule) (hle : n ≤ m) : Runs n rule :=
  fun c hc => ⟨(h c hc).1, fun hlength => (h c hc).2 (Nat.le_trans hlength hle)⟩

/-- A rule that ends at once with a value or an error, and does not move. -/
theorem RunsAt.of_still {rule : Rule α} (hc : c.Ended) (htokens : (rule c).2.tokens = c.tokens)
    (hindex : (rule c).2.index = c.index) (hends : (rule c).1 ≠ .exhausted) : RunsAt n rule c :=
  ⟨.of_same hc htokens hindex, fun _ => hends⟩

theorem RunsAt.bind {rule : Rule α} {next : α → Rule β} (hc : c.Ended) (h : RunsAt n rule c)
    (hnext : ∀ a, Runs n (next a)) : RunsAt n (rule >>= next) c := by
  obtain ⟨hreach, hends⟩ := h
  rw [RunsAt, Run.bind_apply]
  rcases hr : rule c with ⟨a | e | _, d⟩ <;> rw [hr] at hreach hends
  · have hafter := hnext a d (hreach.ended hc)
    refine ⟨hreach.trans hafter.1, fun hlength => hafter.2 ?_⟩
    exact Nat.le_trans hreach.rest_length_le hlength
  · exact ⟨hreach, fun _ => nofun⟩
  · exact ⟨hreach, fun hlength => absurd rfl (hends hlength)⟩

theorem Runs.bind {rule : Rule α} {next : α → Rule β} (h : Runs n rule)
    (hnext : ∀ a, Runs n (next a)) : Runs n (rule >>= next) :=
  fun c hc => (h c hc).bind hc hnext

theorem runs_exhausted : Runs 0 (Run.exhausted : Rule α) := by
  intro c hc
  refine ⟨hc.refl, fun hlength => ?_⟩
  rw [hc.rest_eq] at hlength
  simp at hlength

theorem runs_pure (a : α) : Runs n (pure a : Rule α) :=
  fun _ hc => .of_still hc rfl rfl nofun

theorem runs_look (f : Cursor → α) : Runs n (Run.look f : Rule α) :=
  fun _ hc => .of_still hc rfl rfl nofun

/-- What is seen in the cursor decides how a rule goes on. -/
theorem runsAt_look_bind {f : Cursor → α} {next : α → Rule β} (h : RunsAt n (next (f c)) c) :
    RunsAt n (Run.look f >>= next) c := h

theorem runs_sees (token : Token) : Runs n (sees token) :=
  runs_look _

theorem runs_unexpected (expected : String) : Runs n (unexpected expected : Rule α) :=
  fun _ hc => .of_still hc rfl rfl nofun

theorem runs_advance : Runs n advance :=
  fun _ hc => ⟨hc.reaches_advance, fun _ => nofun⟩

theorem runs_skipNewlines : Runs n skipNewlines :=
  fun _ hc => ⟨hc.reaches_skipNewlines, fun _ => nofun⟩

/-- Reporting an error does not move the cursor. -/
theorem setbackOr_snd (c : Cursor) (e : SyntaxError) :
    (c.setbackOr e).2.tokens = c.tokens ∧ (c.setbackOr e).2.index = c.index := by
  rcases c with ⟨tokens, index, _ | ⟨start, recorded⟩, log⟩
  · exact ⟨rfl, rfl⟩
  · by_cases hstart : start = index <;> simp [Cursor.setbackOr, Cursor.takeSetback, hstart]

theorem runs_failOr (error : Cursor → SyntaxError) : Runs n (failOr error : Rule α) :=
  fun c hc => .of_still hc (setbackOr_snd c _).1 (setbackOr_snd c _).2 nofun

/-- After a token other than the end of input one token less is left. -/
theorem runsAt_advance_bind {next : Located → Rule β} (hc : c.Ended) (hne : c.peek ≠ .eof)
    (hnext : ∀ t, Runs (n - 1) (next t)) : RunsAt n (advance >>= next) c := by
  have hafter := hnext c.current c.advance (hc.reaches_advance.ended hc)
  refine ⟨hc.reaches_advance.trans hafter.1, fun hlength => hafter.2 ?_⟩
  rw [hc.rest_eq_cons_advance hne, List.length_cons] at hlength
  omega

theorem index_lt_advance_bind {next : Located → Rule β} (hc : c.Ended) (hne : c.peek ≠ .eof)
    (hnext : ∀ t, Runs n (next t)) : c.index < ((advance >>= next) c).2.index := by
  have hreach := (hnext c.current c.advance (hc.reaches_advance.ended hc)).1
  exact Nat.lt_of_lt_of_le (hc.index_lt_advance hne) hreach.index_le

theorem expect_of_peek {token : Token} {expected : String} (h : c.peek = token) :
    expect token expected c = (.value c.position, c.advance) := by
  simp [expect, sees, Run.look, Run.bind_apply, h, advance, Run.pure_apply, Cursor.position]

theorem expect_of_peek_ne {token : Token} {expected : String} (h : c.peek ≠ token) :
    expect token expected c = (.error (c.unexpected expected), c) := by
  simp [expect, sees, Run.look, Run.bind_apply, h, unexpected]

/-- A rule that starts by requiring a token has one token less for what follows. -/
theorem starts_expect_bind {token : Token} {expected : String} {next : Position → Rule β}
    (hne : token ≠ .eof) (hnext : ∀ p, Runs (n - 1) (next p)) :
    Starts token n (expect token expected >>= next) := by
  -- where the token is there, requiring it is moving past it
  have hrun : ∀ c : Cursor, c.peek = token → (expect token expected >>= next) c =
      (advance >>= fun read => next read.position) c := by
    intro c hpeek
    rw [Run.bind_apply, expect_of_peek hpeek]
    rfl
  refine ⟨?_, ?_⟩
  · intro c hc
    by_cases hpeek : c.peek = token
    · rw [RunsAt, hrun c hpeek]
      exact runsAt_advance_bind hc (hpeek ▸ hne) fun read => hnext read.position
    · rw [RunsAt, Run.bind_apply, expect_of_peek_ne hpeek]
      exact ⟨hc.refl, fun _ => nofun⟩
  · intro c hc hpeek
    rw [hrun c hpeek]
    exact .inr (index_lt_advance_bind hc (hpeek ▸ hne) fun read => hnext read.position)

theorem starts_exhausted (token : Token) : Starts token 0 (Run.exhausted : Rule α) :=
  ⟨runs_exhausted, fun _ _ _ => .inl rfl⟩

theorem Starts.mono {token : Token} {rule : Rule α} (h : Starts token m rule) (hle : n ≤ m) :
    Starts token n rule :=
  ⟨h.runs.mono hle, h.commits⟩

/-- What comes after a move does not take it back. -/
theorem Commits.bind {opens : Token → Prop} {rule : Rule α} {next : α → Rule β}
    (h : Commits opens rule) (hrule : Runs n rule) (hnext : ∀ a, Runs n (next a)) :
    Commits opens (rule >>= next) := by
  intro c hc hopens
  have hreach := (hrule c hc).1
  have hmoved := h c hc hopens
  rw [Run.bind_apply]
  rcases hr : rule c with ⟨a | e | _, d⟩ <;> rw [hr] at hreach hmoved
  · obtain hbound | hlt := hmoved
    · cases hbound
    · exact .inr (Nat.lt_of_lt_of_le hlt (hnext a d (hreach.ended hc)).1.index_le)
  · obtain hbound | hlt := hmoved
    · cases hbound
    · exact .inr hlt
  · exact .inl rfl

theorem runs_expect (token : Token) (expected : String) : Runs n (expect token expected) := by
  refine (runs_sees token).bind fun seen => ?_
  cases seen with
  | true => exact runs_advance.bind fun _ => runs_pure _
  | false => exact runs_unexpected _

theorem runs_expectIdentifier : Runs n expectIdentifier := by
  refine (runs_look _).bind fun token => ?_
  split
  · exact runs_advance.bind fun _ => runs_pure _
  · exact runs_unexpected _

theorem recordSetback_same (c : Cursor) (index : Nat) (e : SyntaxError) :
    (c.recordSetback index e).tokens = c.tokens ∧ (c.recordSetback index e).index = c.index := by
  unfold Cursor.recordSetback
  split
  · split <;> exact ⟨rfl, rfl⟩
  · exact ⟨rfl, rfl⟩

/-- A rewind ends where the attempt started. -/
theorem rewind_same {c d : Cursor} (h : c.Reaches d) (e : SyntaxError) :
    (d.rewind c.index e).tokens = c.tokens ∧ (d.rewind c.index e).index = c.index := by
  have hle := h.index_le
  by_cases hmoved : 0 < d.index - c.index
  · simp only [Cursor.rewind, hmoved, if_true, Cursor.reverse, recordSetback_same]
    exact ⟨h.tokens, by omega⟩
  · simp only [Cursor.rewind, hmoved, if_false]
    exact ⟨h.tokens, by omega⟩

theorem rewind_reaches {c d : Cursor} (h : c.Reaches d) (hc : c.Ended) (e : SyntaxError) :
    c.Reaches (d.rewind c.index e) := by
  obtain ⟨htokens, hindex⟩ := rewind_same h e
  exact .of_same hc htokens hindex

theorem Runs.attempt {rule : Rule α} (h : Runs n rule) : Runs n (attempt rule) := by
  intro c hc
  obtain ⟨hreach, hends⟩ := h c hc
  rw [RunsAt, Rule.attempt]
  rcases hr : rule c with ⟨a | e | _, d⟩ <;> rw [hr] at hreach hends
  · exact ⟨hreach, fun _ => nofun⟩
  · exact ⟨rewind_reaches hreach hc e, fun _ => nofun⟩
  · exact ⟨hreach, fun hlength => absurd rfl (hends hlength)⟩

theorem Runs.expecting {rule : Rule α} (expected : String) (h : Runs n rule) :
    Runs n (expecting expected rule) := by
  intro c hc
  obtain ⟨hreach, hends⟩ := h c hc
  rw [RunsAt, Rule.expecting]
  rcases hr : rule c with ⟨a | e | _, d⟩ <;> rw [hr] at hreach hends
  · exact ⟨hreach, hends⟩
  · exact ⟨hreach, fun _ => nofun⟩
  · exact ⟨hreach, hends⟩

theorem runs_items {item : Rule α} (closing : Symbol) (hitem : Runs n item) (hle : n ≤ m) :
    Runs n (items item closing m) := by
  induction m generalizing n with
  | zero => exact runs_exhausted.mono hle
  | succ m ih =>
    refine hitem.bind fun first => ?_
    intro c hc
    apply runsAt_look_bind
    -- the comma is a token, so the bound of the further items may be smaller by one
    by_cases hcomma : c.peek = .symbol .comma
    · rw [if_pos hcomma]
      refine runsAt_advance_bind hc (by rw [hcomma]; decide) fun _ => ?_
      exact (ih (hitem.mono (Nat.sub_le _ _)) (by omega)).bind fun _ => runs_pure _
    · rw [if_neg hcomma]
      by_cases hclosing : c.peek = .symbol closing
      · rw [if_pos hclosing]
        exact (runs_advance c hc).bind hc fun _ => runs_pure _
      · rw [if_neg hclosing]
        exact runs_unexpected _ c hc

theorem runs_separated {item : Rule α} (closing : Symbol) (hitem : Runs n item) (hle : n ≤ m) :
    Runs n (separated item closing m) := by
  refine (runs_sees _).bind fun seen => ?_
  cases seen with
  | true => exact runs_advance.bind fun _ => runs_pure _
  | false => exact runs_items closing hitem hle

end combinators

end Rule

/-- The rules for what is nested suffice for `n` tokens. -/
structure Nested.Runs (n : Nat) (sub : Nested) : Prop where
  /-- One expression. -/
  expression : sub.expression.Runs n
  /-- The statements of a block. -/
  statements : sub.statements.Runs n

namespace Grammar

open Run Rule

/-! ### The rules of the grammar

In each lemma `sub` suffices for `n` tokens and the rule has the bound `m`. It then suffices for any
number `k` of tokens that is at most `m` and at most `n + 1`: before it reads anything nested it
reads a token of its own. -/

section rules

variable {n m k : Nat} {sub : Nested}

theorem runs_chain {operand : Rule Expr} (accepts : BinaryOperator → Bool)
    (hoperand : operand.Runs (k - 1)) (hm : k ≤ m) (left : Expr) :
    (chain accepts operand m left).Runs k := by
  induction m generalizing k left with
  | zero => exact runs_exhausted.mono hm
  | succ m ih =>
    intro c hc
    apply runsAt_look_bind
    split
    · next op hop =>
      -- an operator is not the end of input, so the operand has one token less
      have hne : c.peek ≠ .eof := by
        intro heof
        rw [heof] at hop
        simp [BinaryOperator.ofToken?] at hop
      refine runsAt_advance_bind hc hne fun _ => ?_
      exact hoperand.bind fun right => ih (hoperand.mono (Nat.sub_le _ _)) (by omega) _
    · exact runs_pure left c hc

theorem runs_leftAssociative {operand : Rule Expr} (accepts : BinaryOperator → Bool)
    (hoperand : operand.Runs k) (hm : k ≤ m) : (leftAssociative accepts operand m).Runs k :=
  hoperand.bind fun first => runs_chain accepts (hoperand.mono (Nat.sub_le _ _)) hm first

theorem runs_block (hsub : sub.Runs n) : (block sub).Runs n :=
  (runs_expect _ _).bind fun _ => hsub.statements.bind fun _ => runs_pure _

theorem runs_blockEnd (construct : Keyword) : (blockEnd construct).Runs n := by
  refine (runs_sees _).bind fun seen => ?_
  cases seen with
  | true => exact runs_advance.bind fun _ => runs_pure _
  | false => exact runs_failOr _

theorem runs_inlineBody (hsub : sub.Runs n) : (inlineBody sub).Runs n :=
  hsub.expression.bind fun _ => runs_pure _

theorem runs_closedBlock (hsub : sub.Runs n) (construct : Keyword) :
    Rule.Runs n (do
      let b ← block sub
      blockEnd construct
      pure b) :=
  (runs_block hsub).bind fun _ => (runs_blockEnd construct).bind fun _ => runs_pure _

theorem runs_body (hsub : sub.Runs n) (construct : Keyword) : (body sub construct).Runs n := by
  refine (runs_sees _).bind fun seen => ?_
  cases seen with
  | true => exact runs_closedBlock hsub construct
  | false => exact runs_inlineBody hsub

theorem runs_afterCase {case : Rule (Expr × Body × Chain)} (hsub : sub.Runs n)
    (hcase : case.Runs n) : (afterCase sub case).Runs n := by
  refine (runs_sees _).bind fun elif => ?_
  cases elif with
  | true => exact hcase.bind fun _ => runs_pure _
  | false =>
    refine (runs_sees _).bind fun otherwise => ?_
    cases otherwise with
    | true => exact runs_advance.bind fun _ => (runs_body hsub .else_).bind fun _ => runs_pure _
    | false => exact runs_pure _

theorem starts_ifCase (hsub : sub.Runs n) (hn : k ≤ n + 1) (hm : k ≤ m) (word : Keyword) :
    (ifCase sub m word).Starts (.keyword word) k := by
  induction m generalizing k word with
  | zero => exact (starts_exhausted _).mono hm
  | succ m ih =>
    refine starts_expect_bind nofun fun _ => ?_
    -- the keyword has been read
    have hsub' : sub.Runs (k - 1) :=
      ⟨hsub.expression.mono (by omega), hsub.statements.mono (by omega)⟩
    have hcase : (ifCase sub m .elif).Runs (k - 1) := (ih (by omega) (by omega) .elif).runs
    refine hsub'.expression.bind fun condition => (runs_expect _ _).bind fun _ => ?_
    refine (runs_sees _).bind fun seen => ?_
    cases seen with
    | false =>
      exact (runs_inlineBody hsub').bind fun b => (runs_afterCase hsub' hcase).bind fun _ =>
        runs_pure _
    | true =>
      refine (runs_block hsub').bind fun b => (runs_sees _).bind fun closed => ?_
      cases closed with
      | true => exact runs_advance.bind fun _ => runs_pure _
      | false =>
        refine (runs_sees _).bind fun elif => (runs_sees _).bind fun otherwise => ?_
        cases elif || otherwise with
        | true => exact (runs_afterCase hsub' hcase).bind fun _ => runs_pure _
        | false => exact (runs_blockEnd _).bind fun _ => runs_pure _

theorem starts_conditional (hsub : sub.Runs n) (hn : k ≤ n + 1) (hm : k ≤ m) :
    (conditional sub m).Starts (.keyword .if_) k := by
  have hcase := starts_ifCase hsub hn hm .if_
  refine ⟨(runs_look _).bind fun _ => hcase.runs.bind fun _ => runs_pure _, ?_⟩
  intro c hc hpeek
  exact hcase.commits.bind hcase.runs (fun _ => runs_pure _) c hc hpeek

theorem runs_step (hsub : sub.Runs n) : (step sub).Runs n := by
  refine (runs_sees _).bind fun seen => ?_
  cases seen with
  | true => exact runs_advance.bind fun _ => hsub.expression.bind fun _ => runs_pure _
  | false => exact runs_pure _

theorem starts_countedLoop (hsub : sub.Runs n) :
    (countedLoop sub).Starts (.keyword .for_) (n + 1) := by
  refine starts_expect_bind nofun fun p => ?_
  refine runs_expectIdentifier.bind fun var => (runs_expect _ _).bind fun _ => ?_
  refine hsub.expression.bind fun start => (runs_expect _ _).bind fun _ => ?_
  refine hsub.expression.bind fun stop => (runs_step hsub).bind fun by_ => ?_
  exact (runs_expect _ _).bind fun _ => (runs_body hsub .for_).bind fun _ => runs_pure _

theorem starts_conditionalLoop (hsub : sub.Runs n) :
    (conditionalLoop sub).Starts (.keyword .while_) (n + 1) := by
  refine starts_expect_bind nofun fun p => ?_
  refine hsub.expression.bind fun condition => (runs_expect _ _).bind fun _ => ?_
  exact (runs_body hsub .while_).bind fun _ => runs_pure _

theorem runs_optionalName : optionalName.Runs n := by
  refine (runs_look _).bind fun token => ?_
  split
  · exact runs_advance.bind fun _ => runs_pure _
  · exact runs_pure _

theorem runs_functionBody (hsub : sub.Runs n) : (functionBody sub).Runs n := by
  refine (runs_sees _).bind fun arrow => ?_
  cases arrow with
  | true => exact runs_advance.bind fun _ => runs_inlineBody hsub
  | false =>
    refine (runs_sees _).bind fun newline => ?_
    cases newline with
    | true => exact runs_closedBlock hsub .function
    | false => exact runs_unexpected _

theorem starts_functionDefinition (hsub : sub.Runs n) (hn : k ≤ n + 1) (hm : k ≤ m) :
    (functionDefinition sub m).Starts (.keyword .function) k := by
  refine starts_expect_bind nofun fun p => runs_optionalName.bind fun name => ?_
  refine (runs_expect _ _).bind fun _ => ?_
  refine (runs_separated .rparen runs_expectIdentifier (by omega)).bind fun params => ?_
  have hsub' : sub.Runs (k - 1) :=
    ⟨hsub.expression.mono (by omega), hsub.statements.mono (by omega)⟩
  exact (runs_functionBody hsub').bind fun _ => runs_pure _

theorem starts_grouping (hsub : sub.Runs n) : (grouping sub).Starts (.symbol .lparen) (n + 1) :=
  starts_expect_bind nofun fun _ => hsub.expression.bind fun _ => (runs_expect _ _).bind fun _ =>
    runs_pure _

theorem starts_listLiteral (hsub : sub.Runs n) (hn : k ≤ n + 1) (hm : k ≤ m) :
    (listLiteral sub m).Starts (.symbol .lbracket) k := by
  refine starts_expect_bind nofun fun p => ?_
  have helement : sub.expression.Runs (k - 1) := hsub.expression.mono (by omega)
  exact (runs_separated .rbracket helement (by omega)).bind fun _ => runs_pure _

theorem runs_numberLiteral (text : String) : (numberLiteral text).Runs n := by
  unfold numberLiteral
  split
  · exact runs_advance.bind fun _ => runs_pure _
  · exact runs_unexpected _

theorem runs_atom (hsub : sub.Runs n) (hn : k ≤ n + 1) (hm : k ≤ m) : (atom sub m).Runs k := by
  refine (runs_look _).bind fun token => ?_
  split
  · exact runs_numberLiteral _
  · exact runs_numberLiteral _
  · exact runs_advance.bind fun _ => runs_pure _
  · exact runs_advance.bind fun _ => runs_pure _
  · exact (starts_grouping hsub).runs.mono hn
  · exact (starts_listLiteral hsub hn hm).runs
  · exact (starts_conditional hsub hn hm).runs
  · exact (starts_countedLoop hsub).runs.mono hn
  · exact (starts_conditionalLoop hsub).runs.mono hn
  · exact (starts_functionDefinition hsub hn hm).runs
  · exact runs_unexpected _

theorem runs_call (hsub : sub.Runs n) (hn : k ≤ n + 1) (hm : k ≤ m) : (call sub m).Runs k := by
  refine (runs_atom hsub hn hm).bind fun callee => ?_
  intro c hc
  apply runsAt_look_bind
  by_cases hparen : c.peek = .symbol .lparen
  · rw [if_pos (decide_eq_true hparen)]
    refine runsAt_advance_bind hc (by rw [hparen]; decide) fun _ => ?_
    have hargument : sub.expression.Runs (k - 1) := hsub.expression.mono (by omega)
    exact (runs_separated .rparen hargument (by omega)).bind fun _ => runs_pure _
  · rw [if_neg (by simpa using hparen)]
    exact runs_pure _ c hc

theorem runs_power {exponent : Rule Expr} (hsub : sub.Runs n) (hexponent : exponent.Runs (k - 1))
    (hn : k ≤ n + 1) (hm : k ≤ m) : (power sub exponent m).Runs k :=
  (runs_call hsub hn hm).bind fun base => runs_chain _ hexponent hm base

theorem runs_factor (hsub : sub.Runs n) (hn : k ≤ n + 1) (hm : k ≤ m) : (factor sub m).Runs k := by
  induction m generalizing k with
  | zero => exact runs_exhausted.mono hm
  | succ m ih =>
    have ih' : (factor sub m).Runs (k - 1) := ih (by omega) (by omega)
    intro c hc
    apply runsAt_look_bind
    split
    · next op hop =>
      have hne : c.peek ≠ .eof := by
        intro heof
        rw [heof] at hop
        simp [sign?] at hop
      exact runsAt_advance_bind hc hne fun _ => ih'.bind fun _ => runs_pure _
    · exact runs_power hsub ih' hn hm c hc

theorem runs_product (hsub : sub.Runs n) (hn : k ≤ n + 1) (hm : k ≤ m) : (product sub m).Runs k :=
  runs_leftAssociative _ (runs_factor hsub hn hm) hm

theorem runs_sum (hsub : sub.Runs n) (hn : k ≤ n + 1) (hm : k ≤ m) : (sum sub m).Runs k :=
  runs_leftAssociative _ (runs_product hsub hn hm) hm

theorem runs_comparison (hsub : sub.Runs n) (hn : k ≤ n + 1) (hm : k ≤ m) :
    (comparison sub m).Runs k := by
  induction m generalizing k with
  | zero => exact runs_exhausted.mono hm
  | succ m ih =>
    intro c hc
    apply runsAt_look_bind
    by_cases hbang : c.peek = .symbol .bang
    · rw [if_pos (decide_eq_true hbang)]
      refine runsAt_advance_bind hc (by rw [hbang]; decide) fun _ => ?_
      exact (ih (by omega) (by omega)).bind fun _ => runs_pure _
    · rw [if_neg (by simpa using hbang)]
      exact runs_leftAssociative _ (runs_sum hsub hn hm) hm c hc

theorem runs_logical (hsub : sub.Runs n) (hn : k ≤ n + 1) (hm : k ≤ m) : (logical sub m).Runs k :=
  runs_leftAssociative _ (runs_comparison hsub hn hm) hm

theorem starts_assignment (hsub : sub.Runs n) :
    (assignment sub).Starts (.keyword .var) (n + 1) := by
  refine starts_expect_bind nofun fun p => runs_expectIdentifier.bind fun name => ?_
  exact (runs_expect _ _).bind fun _ => hsub.expression.bind fun _ => runs_pure _

theorem runs_expressionOver (hsub : sub.Runs n) (hn : k ≤ n + 1) (hm : k ≤ m) :
    (expressionOver sub m).Runs k := by
  refine (runs_sees _).bind fun seen => ?_
  cases seen with
  | true => exact (starts_assignment hsub).runs.mono hn
  | false => exact (runs_logical hsub hn hm).expecting _

end rules

/-! ### Closing the circle -/

theorem runs_furtherStatements {ex : Rule Expr} {k m : Nat} (hex : ex.Runs k) (hm : k ≤ m) :
    (furtherStatements ex m).Runs k := by
  induction m generalizing k with
  | zero => exact runs_exhausted.mono hm
  | succ m ih =>
    intro c hc
    rw [RunsAt, furtherStatements, Run.bind_apply]
    have hreach := hc.reaches_skipNewlines
    by_cases hcount : c.skipNewlines.1 = 0
    · simp only [skipNewlines, hcount]
      exact ⟨hreach, fun _ => nofun⟩
    · -- a separator was skipped, so one token less is left
      have hlength : c.skipNewlines.2.rest.length + 1 ≤ c.rest.length := by
        have hpeek : c.peek = .newline :=
          Classical.not_not.mp fun hne => hcount (hc.skipNewlines_eq_zero.mpr hne)
        have hnewline : c.current.isNewline = true := decide_eq_true hpeek
        rw [hc.rest_skipNewlines, hc.rest_eq, List.dropWhile_cons, if_pos hnewline,
          List.length_cons]
        exact Nat.succ_le_succ (List.dropWhile_suffix _).length_le
      have hafter {rule : Rule (List Expr)} (hrule : rule.Runs (k - 1)) :
          c.Reaches (rule c.skipNewlines.2).2 ∧
            (c.rest.length ≤ k → (rule c.skipNewlines.2).1 ≠ .exhausted) := by
        obtain ⟨hreach', hends⟩ := hrule c.skipNewlines.2 (hreach.ended hc)
        exact ⟨hreach.trans hreach', fun hk => hends (by omega)⟩
      simp only [skipNewlines, hcount, if_false]
      have hex' := hex.mono (Nat.sub_le k 1)
      refine hafter (hex'.attempt.bind fun reply => ?_)
      cases reply with
      | some e => exact (ih hex' (by omega)).bind fun _ => runs_pure _
      | none => exact runs_pure _

theorem runs_statementsOver {ex : Rule Expr} {k m : Nat} (hex : ex.Runs k) (hm : k ≤ m) :
    (statementsOver ex m).Runs k :=
  runs_skipNewlines.bind fun _ => hex.bind fun _ => (runs_furtherStatements hex hm).bind fun _ =>
    runs_pure _

/-- An expression whose bound is `m` suffices for fewer than `m` tokens. -/
theorem runs_expression (m : Nat) : (expression m).Runs (m - 1) := by
  induction m with
  | zero => exact runs_exhausted
  | succ m ih =>
    have hsub : (nested m).Runs (m - 1) := ⟨ih, runs_statementsOver ih (Nat.sub_le _ _)⟩
    exact runs_expressionOver hsub (by omega) (Nat.le_refl _)

theorem runs_nested (m : Nat) : (nested m).Runs (m - 1) :=
  ⟨runs_expression m, runs_statementsOver (runs_expression m) (Nat.sub_le _ _)⟩

/-- A program, step by step: separators, then nothing, or statements and the end of input. -/
theorem programOver_apply (sub : Nested) (c : Cursor) :
    programOver sub c =
      if c.skipNewlines.2.peek = .eof then
        (.value (.list [] c.skipNewlines.2.position), c.skipNewlines.2)
      else
        match sub.statements c.skipNewlines.2 with
        | (.value tree, d) =>
          if d.peek = .eof then
            (.value tree, { d with log := .parsed (statementCount tree) :: d.log })
          else failOr (·.unexpected "an operator or end of input") d
        | (.error e, d) => (.error e, d)
        | (.exhausted, d) => (.exhausted, d) := by
  simp only [programOver, Run.bind_apply, skipNewlines, sees, look]
  by_cases hempty : c.skipNewlines.2.peek = .eof
  · simp only [hempty, decide_true, if_true]
    rfl
  · simp only [decide_eq_false hempty, Bool.false_eq_true, if_neg hempty, if_false,
      Run.bind_apply]
    rcases sub.statements c.skipNewlines.2 with ⟨tree | e | _, d⟩
    · by_cases hended : d.peek = .eof
      · simp only [look, hended, decide_true, if_true]
        rfl
      · simp only [look, decide_eq_false hended, Bool.false_eq_true, if_neg hended, if_false]
    · rfl
    · rfl

theorem runs_programOver {sub : Nested} {n : Nat} (hsub : sub.Runs n) :
    (programOver sub).Runs n := by
  refine runs_skipNewlines.bind fun _ => (runs_sees _).bind fun empty => ?_
  cases empty with
  | true => exact (runs_look _).bind fun _ => runs_pure _
  | false =>
    refine hsub.statements.bind fun tree => (runs_sees _).bind fun ended => ?_
    cases ended with
    | true =>
      have hrecord : (record (.parsed (statementCount tree))).Runs n :=
        fun c hc => .of_still hc rfl rfl nofun
      exact hrecord.bind fun _ => runs_pure _
    | false => exact runs_failOr _

end Grammar

/-! ### Whole lists of tokens -/

/-- The list ends with the end of input. -/
def EndsInput (tokens : List Located) : Prop :=
  ∃ init p, tokens = init ++ [⟨.eof, p⟩]

theorem ended_ofTokens {tokens : List Located} (h : EndsInput tokens) :
    (Cursor.ofTokens tokens).Ended := by
  obtain ⟨init, p, rfl⟩ := h
  refine ⟨?_, p, ?_⟩ <;> simp [Cursor.ofTokens]

@[simp] theorem rest_ofTokens (tokens : List Located) : (Cursor.ofTokens tokens).rest = tokens := by
  simp [Cursor.ofTokens, Cursor.rest]

/-- A list of tokens that ends with the end of input is read as a tree or refused with an error. -/
theorem parse_ne_exhausted {tokens : List Located} (h : EndsInput tokens) :
    (parse tokens).1 ≠ .exhausted := by
  have hruns := Grammar.runs_programOver (Grammar.runs_nested (Grammar.bound tokens.length))
  refine (hruns _ (ended_ofTokens h)).2 ?_
  rw [rest_ofTokens, Grammar.bound]
  omega

end LineScript
