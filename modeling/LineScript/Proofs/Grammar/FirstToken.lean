import LineScript.Proofs.Grammar.Progress

/-!
# The first token decides

Whether an expression can be read at all shows in its first token. A token that cannot open an
expression makes the rule fail where it stands. A token that can open one is read, so whatever
happens later happens further on.

  * `opensAtom`, `opensFactor`, `opensOperand` and `opensExpression` are the tokens with which an
    atom, a factor, an operand of a logical operator and an expression can begin.
  * `Rule.Refuses opens rule`: without such a token the rule fails and does not move. The opposite,
    `Rule.Commits`, holds for the same tokens if numbers can be read.
-/

namespace LineScript

namespace Token

/-- The tokens that can open an atom. -/
def opensAtom : Token → Bool
  | int _ | float _ | str _ | identifier _ | symbol .lparen | symbol .lbracket | keyword .if_
  | keyword .for_ | keyword .while_ | keyword .function => true
  | _ => false

/-- The tokens that can open a factor: also the signs. -/
def opensFactor : Token → Bool
  | symbol .plus | symbol .minus => true
  | token => token.opensAtom

/-- The tokens that can open a comparison, and so an operand of `&&` or `||`: also `!`. -/
def opensOperand : Token → Bool
  | symbol .bang => true
  | token => token.opensFactor

/-- The tokens that can open an expression: also `VAR`. -/
def opensExpression : Token → Bool
  | keyword .var => true
  | token => token.opensOperand

/-- A number token whose text is a number; other tokens have nothing to hide. -/
def Legible : Token → Prop
  | int text | float text => (Number.read? text).isSome
  | _ => True

theorem ne_eof_of_opensExpression {token : Token} (h : token.opensExpression) : token ≠ .eof := by
  rintro rfl
  exact absurd h (by decide)

end Token

namespace Rule

variable {α β : Type}

/-- At any other token the rule fails, or is at its bound, without moving. -/
def Refuses (opens : Token → Bool) (rule : Rule α) : Prop :=
  ∀ c : Cursor, opens c.peek = false → (∃ e, rule c = (.error e, c)) ∨ rule c = (.exhausted, c)

theorem Refuses.bind {opens : Token → Bool} {rule : Rule α} (h : Refuses opens rule)
    (next : α → Rule β) : Refuses opens (rule >>= next) := by
  intro c hc
  rw [Run.bind_apply]
  rcases h c hc with ⟨e, hr⟩ | hr <;> rw [hr]
  · exact .inl ⟨e, rfl⟩
  · exact .inr rfl

theorem refuses_exhausted (opens : Token → Bool) : Refuses opens (Run.exhausted : Rule α) :=
  fun _ _ => .inr rfl

end Rule

namespace Grammar

open Run Rule Token

variable {n : Nat} {sub : Nested}

/-! ### Tokens that open nothing -/

theorem refuses_atom (m : Nat) : (atom sub m).Refuses opensAtom := by
  intro c hc
  refine .inl ⟨c.unexpected atomStart, ?_⟩
  rw [atom, Run.bind_apply]
  simp only [look]
  generalize c.peek = token at hc
  cases token with
  | keyword word => cases word <;> first | rfl | exact absurd hc (by decide)
  | symbol mark => cases mark <;> first | rfl | exact absurd hc (by decide)
  | malformed text => rfl
  | newline => rfl
  | eof => rfl
  | int text => cases hc
  | float text => cases hc
  | str value => cases hc
  | identifier name => cases hc

theorem refuses_call (m : Nat) : (call sub m).Refuses opensAtom :=
  (refuses_atom m).bind _

theorem refuses_power (exponent : Rule Expr) (m : Nat) :
    (power sub exponent m).Refuses opensAtom :=
  (refuses_call m).bind _

theorem opensFactor_eq_false {token : Token} (h : token.opensFactor = false) :
    sign? token = none ∧ token.opensAtom = false := by
  unfold opensFactor at h
  split at h
  · cases h
  · cases h
  · next hplus hminus =>
    refine ⟨?_, h⟩
    unfold sign?
    split <;> simp_all

theorem refuses_factor (m : Nat) : (factor sub m).Refuses opensFactor := by
  cases m with
  | zero => exact refuses_exhausted _
  | succ m =>
    intro c hc
    obtain ⟨hsign, hatom⟩ := opensFactor_eq_false hc
    have hfactor : factor sub (m + 1) c = power sub (factor sub m) (m + 1) c := by
      rw [factor, Run.bind_apply]
      simp only [look, hsign]
    rw [hfactor]
    exact refuses_power _ _ c hatom

theorem refuses_sum (m : Nat) : (sum sub m).Refuses opensFactor :=
  ((refuses_factor m).bind _).bind _

theorem opensOperand_eq_false {token : Token} (h : token.opensOperand = false) :
    token ≠ .symbol .bang ∧ token.opensFactor = false := by
  unfold opensOperand at h
  split at h
  · cases h
  · next hbang => exact ⟨hbang, h⟩

theorem refuses_comparison (m : Nat) : (comparison sub m).Refuses opensOperand := by
  cases m with
  | zero => exact refuses_exhausted _
  | succ m =>
    intro c hc
    obtain ⟨hbang, hfactor⟩ := opensOperand_eq_false hc
    have hcomparison : comparison sub (m + 1) c =
        leftAssociative BinaryOperator.isComparison (sum sub (m + 1)) (m + 1) c := by
      rw [comparison, Run.bind_apply]
      simp [sees, look, hbang]
    rw [hcomparison]
    exact (refuses_sum (m + 1)).bind _ c hfactor

theorem refuses_logical (m : Nat) : (logical sub m).Refuses opensOperand :=
  (refuses_comparison m).bind _

theorem opensExpression_eq_false {token : Token} (h : token.opensExpression = false) :
    token ≠ .keyword .var ∧ token.opensOperand = false := by
  unfold opensExpression at h
  split at h
  · cases h
  · next hvar => exact ⟨hvar, h⟩

theorem refuses_expressionOver (m : Nat) : (expressionOver sub m).Refuses opensExpression := by
  intro c hc
  obtain ⟨hvar, hoperand⟩ := opensExpression_eq_false hc
  have hexpression : expressionOver sub m c = expecting expressionStart (logical sub m) c := by
    rw [expressionOver, Run.bind_apply]
    simp [seesKeyword, sees, look, hvar]
  rw [hexpression, expecting]
  rcases refuses_logical m c hoperand with ⟨e, hr⟩ | hr <;> rw [hr]
  · exact .inl ⟨_, rfl⟩
  · exact .inr rfl

theorem refuses_expression (m : Nat) : (expression m).Refuses opensExpression := by
  cases m with
  | zero => exact refuses_exhausted _
  | succ m => exact refuses_expressionOver m

/-! ### Tokens that open something -/

theorem commits_atom (hsub : sub.Runs 0) (m : Nat) :
    (atom sub m).Commits fun token => token.opensAtom ∧ token.Legible := by
  rintro c hc ⟨hopens, hlegible⟩
  have hne : c.peek ≠ .eof := by
    intro heof
    rw [heof] at hopens
    cases hopens
  have hmoved : c.index < c.advance.index := hc.index_lt_advance hne
  rw [atom, Run.bind_apply]
  simp only [look]
  -- a number, a string and a name are one token; all other atoms begin with a token they require
  cases htoken : c.peek with
  | int text =>
    rw [htoken] at hlegible
    obtain ⟨value, hvalue⟩ := Option.isSome_iff_exists.mp hlegible
    simp only [numberLiteral, hvalue]
    exact .inr hmoved
  | float text =>
    rw [htoken] at hlegible
    obtain ⟨value, hvalue⟩ := Option.isSome_iff_exists.mp hlegible
    simp only [numberLiteral, hvalue]
    exact .inr hmoved
  | str value => exact .inr hmoved
  | identifier name => exact .inr hmoved
  | keyword word =>
    rw [htoken] at hopens
    cases word with
    | if_ => exact (starts_conditional hsub (Nat.zero_le _) (Nat.zero_le _)).commits c hc htoken
    | for_ => exact (starts_countedLoop hsub).commits c hc htoken
    | while_ => exact (starts_conditionalLoop hsub).commits c hc htoken
    | function =>
      exact (starts_functionDefinition hsub (Nat.zero_le _) (Nat.zero_le _)).commits c hc htoken
    | _ => exact absurd hopens (by decide)
  | symbol mark =>
    rw [htoken] at hopens
    cases mark with
    | lparen => exact (starts_grouping hsub).commits c hc htoken
    | lbracket =>
      exact (starts_listLiteral hsub (Nat.zero_le _) (Nat.zero_le _)).commits c hc htoken
    | _ => exact absurd hopens (by decide)
  | malformed text => rw [htoken] at hopens; cases hopens
  | newline => rw [htoken] at hopens; cases hopens
  | eof => exact absurd htoken hne

theorem commits_power {exponent : Rule Expr} (hsub : sub.Runs 0) (hexponent : exponent.Runs 0)
    (m : Nat) : (power sub exponent m).Commits fun token => token.opensAtom ∧ token.Legible := by
  have hatom := runs_atom hsub (Nat.zero_le _) (Nat.zero_le m)
  have hcall := runs_call hsub (Nat.zero_le _) (Nat.zero_le m)
  have harguments : (call sub m).Commits fun token => token.opensAtom ∧ token.Legible := by
    refine (commits_atom hsub m).bind hatom fun callee => (runs_sees _).bind fun seen => ?_
    cases seen with
    | true =>
      refine runs_advance.bind fun _ => ?_
      exact (runs_separated .rparen hsub.expression (Nat.zero_le _)).bind fun _ => runs_pure _
    | false => exact runs_pure _
  exact harguments.bind hcall fun base => runs_chain _ hexponent (Nat.zero_le _) base

theorem commits_factor (hsub : sub.Runs 0) (m : Nat) :
    (factor sub m).Commits fun token => token.opensFactor ∧ token.Legible := by
  cases m with
  | zero => exact fun _ _ _ => .inl rfl
  | succ m =>
    rintro c hc ⟨hopens, hlegible⟩
    have hfactor := runs_factor hsub (Nat.zero_le _) (Nat.zero_le m)
    rw [factor, Run.bind_apply]
    simp only [look]
    -- a sign is passed at once; without one, the first operand moves
    cases hsign : sign? c.peek with
    | some op =>
      have hne : c.peek ≠ .eof := by
        intro heof
        rw [heof] at hsign
        cases hsign
      exact .inr (index_lt_advance_bind hc hne fun _ => hfactor.bind fun _ => runs_pure _)
    | none =>
      have hatom : c.peek.opensAtom := by
        unfold opensFactor at hopens
        split at hopens <;> simp_all [sign?]
      exact commits_power hsub hfactor (m + 1) c hc ⟨hatom, hlegible⟩

theorem commits_sum (hsub : sub.Runs 0) (m : Nat) :
    (sum sub m).Commits fun token => token.opensFactor ∧ token.Legible := by
  have hfactor := runs_factor hsub (Nat.zero_le _) (Nat.zero_le m)
  have hproduct := runs_product hsub (Nat.zero_le _) (Nat.zero_le m)
  have hchain : (product sub m).Commits fun token => token.opensFactor ∧ token.Legible :=
    (commits_factor hsub m).bind hfactor fun first => runs_chain _ hfactor (Nat.zero_le _) first
  exact hchain.bind hproduct fun first => runs_chain _ hproduct (Nat.zero_le _) first

theorem commits_comparison (hsub : sub.Runs 0) (m : Nat) :
    (comparison sub m).Commits fun token => token.opensOperand ∧ token.Legible := by
  cases m with
  | zero => exact fun _ _ _ => .inl rfl
  | succ m =>
    rintro c hc ⟨hopens, hlegible⟩
    rw [comparison, Run.bind_apply]
    simp only [sees, look]
    -- in the same way for `!`
    by_cases hbang : c.peek = .symbol .bang
    · rw [decide_eq_true hbang]
      have hcomparison := runs_comparison hsub (Nat.zero_le _) (Nat.zero_le m)
      exact .inr (index_lt_advance_bind hc (by rw [hbang]; decide) fun _ =>
        hcomparison.bind fun _ => runs_pure _)
    · rw [decide_eq_false hbang]
      have hsum := runs_sum hsub (Nat.zero_le _) (Nat.zero_le (m + 1))
      have hfactor : c.peek.opensFactor := by
        unfold opensOperand at hopens
        split at hopens <;> simp_all
      exact (commits_sum hsub (m + 1)).bind hsum
        (fun first => runs_chain _ hsum (Nat.zero_le _) first) c hc ⟨hfactor, hlegible⟩

theorem commits_logical (hsub : sub.Runs 0) (m : Nat) :
    (logical sub m).Commits fun token => token.opensOperand ∧ token.Legible := by
  have hcomparison := runs_comparison hsub (Nat.zero_le _) (Nat.zero_le m)
  exact (commits_comparison hsub m).bind hcomparison fun first =>
    runs_chain _ hcomparison (Nat.zero_le _) first

theorem commits_expressionOver (hsub : sub.Runs 0) (m : Nat) :
    (expressionOver sub m).Commits fun token => token.opensExpression ∧ token.Legible := by
  rintro c hc ⟨hopens, hlegible⟩
  rw [expressionOver, Run.bind_apply]
  simp only [seesKeyword, sees, look]
  by_cases hvar : c.peek = .keyword .var
  · rw [decide_eq_true hvar]
    exact (starts_assignment hsub).commits c hc hvar
  · rw [decide_eq_false hvar]
    have hoperand : c.peek.opensOperand := by
      unfold opensExpression at hopens
      split at hopens <;> simp_all
    have hmoved := commits_logical hsub m c hc ⟨hoperand, hlegible⟩
    simp only [Bool.false_eq_true, if_false, expecting]
    -- the error may be replaced, but the cursor stays where the operand left it
    rcases hr : logical sub m c with ⟨a | e | _, d⟩ <;> rw [hr] at hmoved
    · exact hmoved
    · obtain ⟨⟨⟩⟩ | hlt := hmoved
      exact .inr hlt
    · exact .inl rfl

theorem commits_expression (m : Nat) :
    (expression m).Commits fun token => token.opensExpression ∧ token.Legible := by
  cases m with
  | zero => exact fun _ _ _ => .inl rfl
  | succ m =>
    have hsub := runs_nested m
    exact commits_expressionOver
      ⟨hsub.expression.mono (Nat.zero_le _), hsub.statements.mono (Nat.zero_le _)⟩ m

end Grammar

end LineScript
