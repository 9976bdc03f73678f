import LineScript.Proofs.Grammar.FirstToken

/-!
# Looking ahead instead of going back

The statements of a list are read by trial: a statement that fails is given up, the cursor goes back
to where it started, and the error waits in the cursor for whoever reads on from there. A parser
that looks at one token before it reads a statement needs none of this. Both parsers accept the same
programs, with the same trees, and refuse the others with the same errors.

  * `Predictive.furtherStatements` reads a further statement exactly if the token after the
    separators can open one, and lets its error pass. All other rules are those of the grammar, over
    these statements; `predict` is the whole parser.
  * `Twin` says that two cursors are at the same place of the same tokens with nothing recorded.
  * `Agree rule rule'` says that from twins on both rules give the same value and end at twins
    again, or fail with the same error, both having moved or neither.
  * `AgreeOrGiveUp` allows the first rule one more ending: it has given up a statement, whose error
    it has recorded for the place where it stands, and the second has failed with this error.

**Key idea.** A statement is given up with a record only if it had moved, that is, if the token it
started with can open an expression. None of the tokens that may follow a list of statements can.
So whoever reads on from there fails at once, and takes the record: the slot is empty again, and
the error that is reported is the one that was recorded last.
-/

namespace LineScript

/-! ### The predictive parser -/

namespace Grammar.Predictive

open Run Rule

/-- The statements after the first one: a further statement is read if the token after the
separators can open one. -/
def furtherStatements (expression : Rule Expr) : Nat → Rule (List Expr)
  | 0 => exhausted
  | n + 1 => do
    if (← skipNewlines) = 0 then pure []
    else if (← look Cursor.peek).opensExpression then
      let e ← expression
      let rest ← furtherStatements expression n
      pure (e :: rest)
    else pure []

/-- One or more statements, given the rule for one. -/
def statementsOver (expression : Rule Expr) (n : Nat) : Rule Expr := do
  let _ ← skipNewlines
  let first ← expression
  let rest ← furtherStatements expression n
  pure (.list (first :: rest) first.position)

/-- An expression whose nesting is at most `n` deep. -/
def expression : Nat → Rule Expr
  | 0 => exhausted
  | n + 1 => expressionOver ⟨expression n, statementsOver (expression n) n⟩ n

/-- The nested rules of depth at most `n`. -/
def nested (n : Nat) : Nested :=
  ⟨expression n, statementsOver (expression n) n⟩

end Grammar.Predictive

/-- Reads a list of tokens as a program, without going back. -/
def predict (tokens : List Located) : Outcome SyntaxError Expr × Cursor :=
  Grammar.programOver (Grammar.Predictive.nested (Grammar.bound tokens.length)) (.ofTokens tokens)

/-! ### Twins -/

/-- Two cursors at the same place of the same tokens, with no record of an attempt. -/
structure Twin (c c' : Cursor) : Prop where
  /-- The tokens are the same. -/
  tokens : c'.tokens = c.tokens
  /-- The place is the same. -/
  index : c'.index = c.index
  /-- Nothing is recorded in the first. -/
  clear : c.setback = none
  /-- Nothing is recorded in the second. -/
  clear' : c'.setback = none

namespace Twin

variable {c c' d d' : Cursor}

theorem current (h : Twin c c') : c'.current = c.current := by
  simp only [Cursor.current, h.tokens, h.index]

theorem peek (h : Twin c c') : c'.peek = c.peek := by
  simp only [Cursor.peek, h.current]

theorem position (h : Twin c c') : c'.position = c.position := by
  simp only [Cursor.position, h.current]

theorem ended (h : Twin c c') (hc : c.Ended) : c'.Ended :=
  ⟨by rw [h.index, h.tokens]; exact hc.inside, by rw [h.tokens]; exact hc.last⟩

theorem reaches (h : Twin c c') (h' : Twin d d') (hreach : c.Reaches d) : c'.Reaches d' :=
  ⟨by rw [h'.tokens, h.tokens, hreach.tokens], by rw [h'.index, h.index]; exact hreach.index_le,
    by rw [h'.index, h.tokens]; exact hreach.inside⟩

theorem advance (h : Twin c c') : Twin c.advance c'.advance := by
  unfold Cursor.advance
  rw [h.index, h.tokens]
  split
  · exact ⟨rfl, rfl, h.clear, h.clear'⟩
  · exact h

theorem skipNewlinesUpTo (limit : Nat) (h : Twin c c') :
    (Cursor.skipNewlinesUpTo limit c').1 = (Cursor.skipNewlinesUpTo limit c).1 ∧
      Twin (Cursor.skipNewlinesUpTo limit c).2 (Cursor.skipNewlinesUpTo limit c').2 := by
  induction limit generalizing c c' with
  | zero => exact ⟨rfl, h⟩
  | succ limit ih =>
    unfold Cursor.skipNewlinesUpTo
    rw [h.peek]
    split
    · obtain ⟨hcount, htwin⟩ := ih h.advance
      exact ⟨by simp only [hcount], htwin⟩
    · exact ⟨rfl, h⟩

theorem skipNewlines (h : Twin c c') :
    c'.skipNewlines.1 = c.skipNewlines.1 ∧ Twin c.skipNewlines.2 c'.skipNewlines.2 := by
  unfold Cursor.skipNewlines
  rw [h.tokens]
  exact h.skipNewlinesUpTo _

end Twin

/-- Skipping separators leaves no trace in the log. -/
theorem Cursor.log_skipNewlinesUpTo (limit : Nat) (c : Cursor) :
    (Cursor.skipNewlinesUpTo limit c).2.log = c.log := by
  induction limit generalizing c with
  | zero => rfl
  | succ limit ih =>
    unfold Cursor.skipNewlinesUpTo
    split
    · rw [ih]
      unfold Cursor.advance
      split <;> rfl
    · rfl

/-! ### Agreement -/

/-- The log has grown by attempts that were given up because of `e`, and by nothing else. -/
def GaveUp (e : SyntaxError) (log log' : Log) : Prop :=
  ∃ events, log' = events ++ log ∧ ∀ event ∈ events, ∃ count, event = .rewound count e

theorem GaveUp.refl (e : SyntaxError) (log : Log) : GaveUp e log log :=
  ⟨[], rfl, nofun⟩

/-- The number tokens under the cursor can all be read. -/
def Cursor.Legible (c : Cursor) : Prop :=
  ∀ t ∈ c.tokens, t.token.Legible

theorem Cursor.Legible.peek {c : Cursor} (h : c.Legible) (hc : c.Ended) : c.peek.Legible := by
  have hinside := hc.inside
  have hcurrent : c.current = c.tokens[c.index] := by
    simp [Cursor.current, hinside]
  rw [Cursor.peek, hcurrent]
  exact h _ (Array.getElem_mem hinside)

theorem Cursor.Reaches.legible {c d : Cursor} (h : c.Reaches d) (hc : c.Legible) : d.Legible :=
  fun t ht => hc t (h.tokens ▸ ht)

/-- How two rules that were started at `c` and `c'` may end if they agree. What they do once one of
them is at its bound is left open. -/
inductive Tally {α : Type} (c c' : Cursor) :
    Outcome SyntaxError α × Cursor → Outcome SyntaxError α × Cursor → Prop
  /-- With the same value, and nothing given up. -/
  | value {a : α} {d d' : Cursor} (twin : Twin d d') (reach : c.Reaches d) (log : d.log = c.log) :
    Tally c c' (.value a, d) (.value a, d')
  /-- With the same error, both moved or neither. Whatever was given up was given up because of this
  error, no record of it is left, and if they have not moved it is nothing. -/
  | error {e : SyntaxError} {d d' : Cursor} (reach : c.Reaches d) (reach' : c'.Reaches d')
    (still : d.index = c.index ↔ d'.index = c'.index) (clear : d.setback = none)
    (log : GaveUp e c.log d.log) (quiet : d.index = c.index → d.log = c.log) :
    Tally c c' (.error e, d) (.error e, d')
  /-- The first is at its bound. -/
  | exhausted {d : Cursor} {reply' : Outcome SyntaxError α × Cursor} :
    Tally c c' (.exhausted, d) reply'

/-- How the two rules for a list of statements may end. -/
inductive TallyOrGiveUp {α : Type} (c c' : Cursor) :
    Outcome SyntaxError α × Cursor → Outcome SyntaxError α × Cursor → Prop
  /-- As rules that agree. -/
  | tally {reply reply' : Outcome SyntaxError α × Cursor} (tally : Tally c c' reply reply') :
    TallyOrGiveUp c c' reply reply'
  /-- The first has given up a statement that started where it stands, with the error with which the
  second fails. -/
  | gaveUp {a : α} {e : SyntaxError} {d d' : Cursor} (reach : c.Reaches d) (reach' : c'.Reaches d')
    (recorded : d.setback = some ⟨d.index, e⟩) (opens : d.peek.opensExpression)
    (log : GaveUp e c.log d.log) : TallyOrGiveUp c c' (.value a, d) (.error e, d')

/-- A tally from a later place on is a tally from the earlier place. -/
theorem Tally.from_earlier {α : Type} {c c' c₁ c₁' : Cursor}
    {reply reply' : Outcome SyntaxError α × Cursor} (h : Tally c₁ c₁' reply reply')
    (htwin : Twin c c') (htwin₁ : Twin c₁ c₁') (hreach : c.Reaches c₁) (hlog : c₁.log = c.log) :
    Tally c c' reply reply' := by
  have hreach' := htwin.reaches htwin₁ hreach
  cases h with
  | value twin reach log => exact .value twin (hreach.trans reach) (log.trans hlog)
  | error reach reach' still clear log quiet =>
    -- if the earlier part has moved, both have; if not, the later part decides
    have h₁ := hreach.index_le
    have h₂ := reach.index_le
    have h₃ := reach'.index_le
    have h₄ := htwin.index
    have h₅ := htwin₁.index
    refine .error (hreach.trans reach) (hreach'.trans reach') (by omega) clear (hlog ▸ log) ?_
    intro hindex
    exact (quiet (by omega)).trans hlog
  | exhausted => exact .exhausted

theorem TallyOrGiveUp.from_earlier {α : Type} {c c' c₁ c₁' : Cursor}
    {reply reply' : Outcome SyntaxError α × Cursor} (h : TallyOrGiveUp c₁ c₁' reply reply')
    (htwin : Twin c c') (htwin₁ : Twin c₁ c₁') (hreach : c.Reaches c₁) (hlog : c₁.log = c.log) :
    TallyOrGiveUp c c' reply reply' := by
  cases h with
  | tally htally => exact .tally (htally.from_earlier htwin htwin₁ hreach hlog)
  | gaveUp reach reach' recorded opens log =>
    exact .gaveUp (hreach.trans reach) ((htwin.reaches htwin₁ hreach).trans reach') recorded opens
      (hlog ▸ log)

/-- From twins on, the two rules end alike. -/
def Agree {α : Type} (rule rule' : Rule α) : Prop :=
  ∀ c c' : Cursor, c.Ended → c.Legible → Twin c c' → Tally c c' (rule c) (rule' c')

/-- From twins on, the two rules end alike, or the first gives up where the second fails. -/
def AgreeOrGiveUp {α : Type} (rule rule' : Rule α) : Prop :=
  ∀ c c' : Cursor, c.Ended → c.Legible → Twin c c' → TallyOrGiveUp c c' (rule c) (rule' c')

section combinators

open Run Rule

variable {α β : Type}

theorem Agree.bind {rule rule' : Rule α} {next next' : α → Rule β} (h : Agree rule rule')
    (hnext : ∀ a, Agree (next a) (next' a)) : Agree (rule >>= next) (rule' >>= next') := by
  intro c c' hc hlegible htwin
  have htally := h c c' hc hlegible htwin
  rw [Run.bind_apply, Run.bind_apply]
  generalize rule c = reply, rule' c' = reply' at htally
  cases htally with
  | @value a d d' twin reach log =>
    have hafter := hnext a d d' (reach.ended hc) (reach.legible hlegible) twin
    exact hafter.from_earlier htwin twin reach log
  | error reach reach' still clear log quiet => exact .error reach reach' still clear log quiet
  | exhausted => exact .exhausted

theorem AgreeOrGiveUp.bind {rule rule' : Rule α} {next next' : α → Rule β} (h : Agree rule rule')
    (hnext : ∀ a, AgreeOrGiveUp (next a) (next' a)) :
    AgreeOrGiveUp (rule >>= next) (rule' >>= next') := by
  intro c c' hc hlegible htwin
  have htally := h c c' hc hlegible htwin
  rw [Run.bind_apply, Run.bind_apply]
  generalize rule c = reply, rule' c' = reply' at htally
  cases htally with
  | @value a d d' twin reach log =>
    have hafter := hnext a d d' (reach.ended hc) (reach.legible hlegible) twin
    exact hafter.from_earlier htwin twin reach log
  | error reach reach' still clear log quiet =>
    exact .tally (.error reach reach' still clear log quiet)
  | exhausted => exact .tally .exhausted

theorem AgreeOrGiveUp.map {rule rule' : Rule α} (f : α → β) (h : AgreeOrGiveUp rule rule') :
    AgreeOrGiveUp (rule >>= fun a => pure (f a)) (rule' >>= fun a => pure (f a)) := by
  intro c c' hc hlegible htwin
  have htally := h c c' hc hlegible htwin
  rw [Run.bind_apply, Run.bind_apply]
  generalize rule c = reply, rule' c' = reply' at htally
  cases htally with
  | tally htally =>
    cases htally with
    | value twin reach log => exact .tally (.value twin reach log)
    | error reach reach' still clear log quiet =>
    exact .tally (.error reach reach' still clear log quiet)
    | exhausted => exact .tally .exhausted
  | gaveUp reach reach' recorded opens log => exact .gaveUp reach reach' recorded opens log

theorem agree_pure (a : α) : Agree (pure a : Rule α) (pure a) :=
  fun _ _ hc _ htwin => .value htwin hc.refl rfl

theorem agree_exhausted : Agree (exhausted : Rule α) exhausted :=
  fun _ _ _ _ _ => .exhausted

/-- Rules that fail where they stand, with the same error. -/
theorem Tally.fail {c c' : Cursor} (hc : c.Ended) (htwin : Twin c c') (e : SyntaxError) :
    Tally c c' ((.error e, c) : Outcome SyntaxError α × Cursor) (.error e, c') :=
  .error hc.refl (htwin.ended hc).refl ⟨fun _ => rfl, fun _ => rfl⟩ htwin.clear (.refl _ _)
    fun _ => rfl

theorem agree_look {f : Cursor → α} (hf : ∀ c c', Twin c c' → f c' = f c) :
    Agree (look f : Rule α) (look f) := by
  intro c c' hc _ htwin
  unfold look
  rw [hf c c' htwin]
  exact .value htwin hc.refl rfl

theorem agree_peek : Agree (look Cursor.peek) (look Cursor.peek) :=
  agree_look fun _ _ htwin => htwin.peek

theorem agree_sees (token : Token) : Agree (sees token) (sees token) :=
  agree_look fun _ _ htwin => by rw [htwin.peek]

theorem agree_advance : Agree advance advance := by
  intro c c' hc _ htwin
  unfold Rule.advance
  rw [htwin.current]
  refine .value htwin.advance hc.reaches_advance ?_
  unfold Cursor.advance
  split <;> rfl

theorem agree_unexpected (expected : String) :
    Agree (unexpected expected : Rule α) (unexpected expected) := by
  intro c c' hc _ htwin
  have herror : c'.unexpected expected = c.unexpected expected := by
    simp only [Cursor.unexpected, htwin.peek, htwin.position]
  unfold Rule.unexpected
  rw [herror]
  exact .fail hc htwin _

theorem agree_skipNewlines : Agree skipNewlines skipNewlines := by
  intro c c' hc _ htwin
  obtain ⟨hcount, htwin'⟩ := htwin.skipNewlines
  unfold Rule.skipNewlines
  simp only [hcount]
  exact .value htwin' hc.reaches_skipNewlines (Cursor.log_skipNewlinesUpTo _ _)

/-- Without a record the error of the caller is reported. -/
theorem failOr_of_clear (error : Cursor → SyntaxError) {d : Cursor} (hclear : d.setback = none) :
    (failOr error : Rule α) d = (.error (error d), d) := by
  simp [failOr, Cursor.setbackOr, Cursor.takeSetback, hclear]

theorem agree_failOr {error : Cursor → SyntaxError}
    (herror : ∀ c c', Twin c c' → error c' = error c) :
    Agree (failOr error : Rule α) (failOr error) := by
  intro c c' hc _ htwin
  rw [failOr_of_clear _ htwin.clear, failOr_of_clear _ htwin.clear', herror c c' htwin]
  exact .fail hc htwin _

theorem agree_expect (token : Token) (expected : String) :
    Agree (expect token expected) (expect token expected) := by
  refine (agree_sees token).bind fun seen => ?_
  cases seen with
  | true => exact agree_advance.bind fun _ => agree_pure _
  | false => exact agree_unexpected _

theorem agree_expectIdentifier : Agree expectIdentifier expectIdentifier := by
  refine agree_peek.bind fun token => ?_
  split
  · exact agree_advance.bind fun _ => agree_pure _
  · exact agree_unexpected _

theorem Agree.expecting {rule rule' : Rule α} (expected : String) (h : Agree rule rule') :
    Agree (expecting expected rule) (expecting expected rule') := by
  intro c c' hc hlegible htwin
  have htally := h c c' hc hlegible htwin
  unfold Rule.expecting
  generalize rule c = reply, rule' c' = reply' at htally
  cases htally with
  | value twin reach log => exact .value twin reach log
  | @error e d d' reach reach' still clear log quiet =>
    by_cases hstill : d.index = c.index
    · -- both stand where they started, on the same token
      have hstill' : d'.index = c'.index := still.mp hstill
      have hcurrent : d'.current = d.current := by
        simp only [Cursor.current, hstill, hstill', htwin.index, reach.tokens, reach'.tokens,
          htwin.tokens]
      have herror : d'.unexpected expected = d.unexpected expected := by
        simp only [Cursor.unexpected, Cursor.peek, Cursor.position, hcurrent]
      simp only [hstill, hstill', if_true, herror]
      exact .error reach reach' still clear (quiet hstill ▸ .refl _ _) quiet
    · have hmoved' : ¬ d'.index = c'.index := fun h' => hstill (still.mpr h')
      simp only [hstill, hmoved', if_false]
      exact .error reach reach' still clear log quiet
  | exhausted => exact .exhausted

theorem agree_items {item item' : Rule α} (closing : Symbol) (hitem : Agree item item') (n : Nat) :
    Agree (items item closing n) (items item' closing n) := by
  induction n with
  | zero => exact agree_exhausted
  | succ n ih =>
    refine hitem.bind fun first => agree_peek.bind fun token => ?_
    split
    · exact agree_advance.bind fun _ => ih.bind fun _ => agree_pure _
    · split
      · exact agree_advance.bind fun _ => agree_pure _
      · exact agree_unexpected _

theorem agree_separated {item item' : Rule α} (closing : Symbol) (hitem : Agree item item')
    (n : Nat) : Agree (separated item closing n) (separated item' closing n) := by
  refine (agree_sees _).bind fun seen => ?_
  cases seen with
  | true => exact agree_advance.bind fun _ => agree_pure _
  | false => exact agree_items closing hitem n

end combinators

/-! ### The rules of the grammar -/

/-- The nested rules agree, those for statements up to a statement that is given up. -/
structure Nested.Agree (sub sub' : Nested) : Prop where
  /-- One expression. -/
  expression : LineScript.Agree sub.expression sub'.expression
  /-- The statements of a block. -/
  statements : AgreeOrGiveUp sub.statements sub'.statements

namespace Grammar

open Run Rule

variable {sub sub' : Nested}

theorem agree_chain {operand operand' : Rule Expr} (accepts : BinaryOperator → Bool)
    (h : Agree operand operand') (n : Nat) (left : Expr) :
    Agree (chain accepts operand n left) (chain accepts operand' n left) := by
  induction n generalizing left with
  | zero => exact agree_exhausted
  | succ n ih =>
    refine agree_peek.bind fun token => ?_
    split
    · exact agree_advance.bind fun _ => h.bind fun right => ih _
    · exact agree_pure _

theorem agree_leftAssociative {operand operand' : Rule Expr} (accepts : BinaryOperator → Bool)
    (h : Agree operand operand') (n : Nat) :
    Agree (leftAssociative accepts operand n) (leftAssociative accepts operand' n) :=
  h.bind fun first => agree_chain accepts h n first

/-- A rule that, where a statement was given up, fails with the error that was recorded. -/
def Settles {β : Type} (rule : Rule β) : Prop :=
  ∀ (d : Cursor) (e : SyntaxError), d.setback = some ⟨d.index, e⟩ → d.peek.opensExpression →
    rule d = (.error e, { d with setback := none })

theorem Settles.bind {β γ : Type} {rule : Rule β} (h : Settles rule) (next : β → Rule γ) :
    Settles (rule >>= next) := by
  intro d e hrecorded hopens
  rw [Run.bind_apply, h d e hrecorded hopens]

/-- A rule that first looks for a token that opens no expression, and does not find it. -/
theorem Settles.of_sees {β : Type} {token : Token} {next : Bool → Rule β}
    (htoken : token.opensExpression = false) (h : Settles (next false)) :
    Settles (sees token >>= next) := by
  intro d e hrecorded hopens
  have hne : d.peek ≠ token := by
    intro heq
    rw [heq, htoken] at hopens
    cases hopens
  have hsees : (sees token >>= next) d = next false d := by
    rw [Run.bind_apply]
    simp only [sees, look, decide_eq_false hne]
  rw [hsees]
  exact h d e hrecorded hopens

theorem settles_failOr {β : Type} (error : Cursor → SyntaxError) :
    Settles (failOr error : Rule β) := by
  intro d e hrecorded _
  simp [failOr, Cursor.setbackOr, Cursor.takeSetback, hrecorded]

theorem settles_blockEnd (construct : Keyword) : Settles (blockEnd construct) :=
  .of_sees (by decide) (settles_failOr _)

/-- After a rule for statements comes one that settles what was given up: together they agree, as
long as something has been read before. -/
theorem Agree.of_settled {α β : Type} {rule rule' : Rule α} {next next' : α → Rule β}
    {c c' c₁ c₁' : Cursor} (h : AgreeOrGiveUp rule rule') (hnext : ∀ a, Agree (next a) (next' a))
    (hsettles : ∀ a, Settles (next a)) (hc : c.Ended) (hlegible : c.Legible) (htwin : Twin c c')
    (htwin₁ : Twin c₁ c₁') (hreach : c.Reaches c₁) (hmoved : c.index < c₁.index)
    (hlog : c₁.log = c.log) : Tally c c' ((rule >>= next) c₁) ((rule' >>= next') c₁') := by
  have hc₁ := hreach.ended hc
  have hreach' := htwin.reaches htwin₁ hreach
  have htally := h c₁ c₁' hc₁ (hreach.legible hlegible) htwin₁
  rw [Run.bind_apply, Run.bind_apply]
  generalize rule c₁ = reply, rule' c₁' = reply' at htally
  cases htally with
  | tally htally =>
    cases htally with
    | @value a d d' twin reach log =>
      have hafter := hnext a d d' (reach.ended hc₁) ((hreach.trans reach).legible hlegible) twin
      exact hafter.from_earlier htwin twin (hreach.trans reach) (log.trans hlog)
    | error reach reach' still clear log quiet =>
      exact (Tally.error reach reach' still clear log quiet).from_earlier htwin htwin₁ hreach hlog
    | exhausted => exact .exhausted
  | @gaveUp a e d d' reach reach' recorded opens log =>
    show Tally c c' (next a d) (.error e, d')
    -- the first parser fails here with the recorded error, the second has failed already
    rw [hsettles a d e recorded opens]
    -- both have moved, since something was read before the statements
    have h₁ := reach.index_le
    have h₂ := reach'.index_le
    have h₃ := htwin.index
    have h₄ := htwin₁.index
    refine .error ?_ (hreach'.trans reach') ?_ rfl (hlog ▸ log) ?_
    · exact (hreach.trans reach).trans ⟨rfl, Nat.le_refl _, ((hreach.trans reach).ended hc).inside⟩
    · show d.index = c.index ↔ d'.index = c'.index
      omega
    · intro hstill
      replace hstill : d.index = c.index := hstill
      omega

/-- A block and a rule after it that settles what was given up in the block. -/
theorem agree_block_bind {β : Type} {next next' : Body → Rule β} (hsub : sub.Agree sub')
    (hnext : ∀ b, Agree (next b) (next' b)) (hsettles : ∀ b, Settles (next b)) :
    Agree (block sub >>= next) (block sub' >>= next') := by
  intro c c' hc hlegible htwin
  -- what comes after the block is put next to the statements, where it settles
  have hassoc : ∀ (s : Nested) (k : Body → Rule β) (d : Cursor), (block s >>= k) d =
      (expect .newline Token.newline.describe >>= fun _ =>
        s.statements >>= fun statements => k (.block statements)) d := by
    intro s k d
    simp only [block, Run.bind_apply, Run.pure_apply]
    rcases expect .newline Token.newline.describe d with ⟨p | e | _, d₁⟩
    · rcases hr : s.statements d₁ with ⟨b | e | _, d₂⟩ <;> simp [hr]
    · rfl
    · rfl
  rw [hassoc, hassoc, Run.bind_apply, Run.bind_apply]
  by_cases hpeek : c.peek = .newline
  · have hne : c.peek ≠ .eof := by rw [hpeek]; decide
    rw [expect_of_peek hpeek, expect_of_peek (htwin.peek.trans hpeek)]
    have hlog : c.advance.log = c.log := by rw [hc.advance_eq hne]
    exact Agree.of_settled hsub.statements (fun statements => hnext (.block statements))
      (fun statements => hsettles (.block statements)) hc hlegible htwin htwin.advance
      hc.reaches_advance (hc.index_lt_advance hne) hlog
  · have hpeek' : c'.peek ≠ .newline := by rw [htwin.peek]; exact hpeek
    have hunexpected := agree_unexpected (α := β) Token.newline.describe c c' hc hlegible htwin
    rw [expect_of_peek_ne hpeek, expect_of_peek_ne hpeek']
    exact hunexpected

theorem agree_blockEnd (construct : Keyword) : Agree (blockEnd construct) (blockEnd construct) := by
  refine (agree_sees _).bind fun seen => ?_
  cases seen with
  | true => exact agree_advance.bind fun _ => agree_pure _
  | false => exact agree_failOr fun _ _ htwin => by rw [htwin.peek, htwin.position]

theorem agree_closedBlock (hsub : sub.Agree sub') (construct : Keyword) :
    Agree (do
      let b ← block sub
      blockEnd construct
      pure b) (do
      let b ← block sub'
      blockEnd construct
      pure b) :=
  agree_block_bind hsub (fun _ => (agree_blockEnd construct).bind fun _ => agree_pure _)
    fun _ => (settles_blockEnd construct).bind _

theorem agree_inlineBody (hsub : sub.Agree sub') : Agree (inlineBody sub) (inlineBody sub') :=
  hsub.expression.bind fun _ => agree_pure _

theorem agree_body (hsub : sub.Agree sub') (construct : Keyword) :
    Agree (body sub construct) (body sub' construct) := by
  refine (agree_sees _).bind fun seen => ?_
  cases seen with
  | true => exact agree_closedBlock hsub construct
  | false => exact agree_inlineBody hsub

theorem agree_afterCase {case case' : Rule (Expr × Body × Chain)} (hsub : sub.Agree sub')
    (hcase : Agree case case') : Agree (afterCase sub case) (afterCase sub' case') := by
  refine (agree_sees _).bind fun elif => ?_
  cases elif with
  | true => exact hcase.bind fun _ => agree_pure _
  | false =>
    refine (agree_sees _).bind fun otherwise => ?_
    cases otherwise with
    | true => exact agree_advance.bind fun _ => (agree_body hsub .else_).bind fun _ => agree_pure _
    | false => exact agree_pure _

theorem agree_ifCase (hsub : sub.Agree sub') (n : Nat) (word : Keyword) :
    Agree (ifCase sub n word) (ifCase sub' n word) := by
  induction n generalizing word with
  | zero => exact agree_exhausted
  | succ n ih =>
    refine (agree_expect _ _).bind fun _ => hsub.expression.bind fun condition => ?_
    refine (agree_expect _ _).bind fun _ => (agree_sees _).bind fun seen => ?_
    -- an expression on the same line goes back nowhere; a block may give up a statement
    cases seen with
    | false =>
      exact (agree_inlineBody hsub).bind fun b => (agree_afterCase hsub (ih .elif)).bind fun _ =>
        agree_pure _
    | true =>
      refine agree_block_bind hsub (fun b => ?_) fun b => ?_
      · refine (agree_sees _).bind fun closed => ?_
        cases closed with
        | true => exact agree_advance.bind fun _ => agree_pure _
        | false =>
          refine (agree_sees _).bind fun elif => (agree_sees _).bind fun otherwise => ?_
          cases elif || otherwise with
          | true => exact (agree_afterCase hsub (ih .elif)).bind fun _ => agree_pure _
          | false => exact (agree_blockEnd _).bind fun _ => agree_pure _
      · -- where a statement was given up there is no `END`, `ELIF` or `ELSE`
        refine .of_sees (by decide) (.of_sees (by decide) (.of_sees (by decide) ?_))
        exact (settles_blockEnd .if_).bind _

theorem agree_conditional (hsub : sub.Agree sub') (n : Nat) :
    Agree (conditional sub n) (conditional sub' n) :=
  (agree_look fun _ _ htwin => htwin.position).bind fun _ =>
    (agree_ifCase hsub n .if_).bind fun _ =>
    agree_pure _

theorem agree_step (hsub : sub.Agree sub') : Agree (step sub) (step sub') := by
  refine (agree_sees _).bind fun seen => ?_
  cases seen with
  | true => exact agree_advance.bind fun _ => hsub.expression.bind fun _ => agree_pure _
  | false => exact agree_pure _

theorem agree_countedLoop (hsub : sub.Agree sub') : Agree (countedLoop sub) (countedLoop sub') := by
  refine (agree_expect _ _).bind fun p => agree_expectIdentifier.bind fun var => ?_
  refine (agree_expect _ _).bind fun _ => hsub.expression.bind fun start => ?_
  refine (agree_expect _ _).bind fun _ => hsub.expression.bind fun stop => ?_
  refine (agree_step hsub).bind fun by_ => (agree_expect _ _).bind fun _ => ?_
  exact (agree_body hsub .for_).bind fun _ => agree_pure _

theorem agree_conditionalLoop (hsub : sub.Agree sub') :
    Agree (conditionalLoop sub) (conditionalLoop sub') := by
  refine (agree_expect _ _).bind fun p => hsub.expression.bind fun condition => ?_
  exact (agree_expect _ _).bind fun _ => (agree_body hsub .while_).bind fun _ => agree_pure _

theorem agree_optionalName : Agree optionalName optionalName := by
  refine agree_peek.bind fun token => ?_
  split
  · exact agree_advance.bind fun _ => agree_pure _
  · exact agree_pure _

theorem agree_functionBody (hsub : sub.Agree sub') :
    Agree (functionBody sub) (functionBody sub') := by
  refine (agree_sees _).bind fun arrow => ?_
  cases arrow with
  | true => exact agree_advance.bind fun _ => agree_inlineBody hsub
  | false =>
    refine (agree_sees _).bind fun newline => ?_
    cases newline with
    | true => exact agree_closedBlock hsub .function
    | false => exact agree_unexpected _

theorem agree_functionDefinition (hsub : sub.Agree sub') (n : Nat) :
    Agree (functionDefinition sub n) (functionDefinition sub' n) := by
  refine (agree_expect _ _).bind fun p => agree_optionalName.bind fun name => ?_
  refine (agree_expect _ _).bind fun _ => ?_
  refine (agree_separated .rparen agree_expectIdentifier n).bind fun params => ?_
  exact (agree_functionBody hsub).bind fun _ => agree_pure _

theorem agree_numberLiteral (text : String) : Agree (numberLiteral text) (numberLiteral text) := by
  unfold numberLiteral
  split
  · exact agree_advance.bind fun _ => agree_pure _
  · exact agree_unexpected _

theorem agree_atom (hsub : sub.Agree sub') (n : Nat) : Agree (atom sub n) (atom sub' n) := by
  refine agree_peek.bind fun token => ?_
  split
  · exact agree_numberLiteral _
  · exact agree_numberLiteral _
  · exact agree_advance.bind fun _ => agree_pure _
  · exact agree_advance.bind fun _ => agree_pure _
  · exact (agree_expect _ _).bind fun _ => hsub.expression.bind fun _ => (agree_expect _ _).bind
      fun _ => agree_pure _
  · exact (agree_expect _ _).bind fun _ => (agree_separated .rbracket hsub.expression n).bind
      fun _ => agree_pure _
  · exact agree_conditional hsub n
  · exact agree_countedLoop hsub
  · exact agree_conditionalLoop hsub
  · exact agree_functionDefinition hsub n
  · exact agree_unexpected _

theorem agree_call (hsub : sub.Agree sub') (n : Nat) : Agree (call sub n) (call sub' n) := by
  refine (agree_atom hsub n).bind fun callee => (agree_sees _).bind fun seen => ?_
  cases seen with
  | true =>
    exact agree_advance.bind fun _ => (agree_separated .rparen hsub.expression n).bind fun _ =>
      agree_pure _
  | false => exact agree_pure _

theorem agree_factor (hsub : sub.Agree sub') (n : Nat) : Agree (factor sub n) (factor sub' n) := by
  induction n with
  | zero => exact agree_exhausted
  | succ n ih =>
    refine agree_peek.bind fun token => ?_
    split
    · exact agree_advance.bind fun _ => ih.bind fun _ => agree_pure _
    · exact (agree_call hsub (n + 1)).bind fun base => agree_chain _ ih (n + 1) base

theorem agree_sum (hsub : sub.Agree sub') (n : Nat) : Agree (sum sub n) (sum sub' n) :=
  agree_leftAssociative _ (agree_leftAssociative _ (agree_factor hsub n) n) n

theorem agree_comparison (hsub : sub.Agree sub') (n : Nat) :
    Agree (comparison sub n) (comparison sub' n) := by
  induction n with
  | zero => exact agree_exhausted
  | succ n ih =>
    refine (agree_sees _).bind fun seen => ?_
    cases seen with
    | true => exact agree_advance.bind fun _ => ih.bind fun _ => agree_pure _
    | false => exact agree_leftAssociative _ (agree_sum hsub (n + 1)) (n + 1)

theorem agree_expressionOver (hsub : sub.Agree sub') (n : Nat) :
    Agree (expressionOver sub n) (expressionOver sub' n) := by
  refine (agree_sees _).bind fun seen => ?_
  cases seen with
  | true =>
    refine (agree_expect _ _).bind fun p => agree_expectIdentifier.bind fun name => ?_
    exact (agree_expect _ _).bind fun _ => hsub.expression.bind fun _ => agree_pure _
  | false => exact (agree_leftAssociative _ (agree_comparison hsub n) n).expecting _

/-! ### Statements and programs -/

/-- Going back after a move records the error for the place where the attempt started. -/
theorem rewind_of_moved {d : Cursor} {start : Nat} (e : SyntaxError) (hclear : d.setback = none)
    (hmoved : start < d.index) :
    d.rewind start e = { d with
      index := start
      setback := some ⟨start, e⟩
      log := .rewound (d.index - start) e :: d.log } := by
  have hcount : 0 < d.index - start := by omega
  have hback : d.index - (d.index - start) = start := by omega
  simp [Cursor.rewind, hcount, Cursor.recordSetback, hclear, Cursor.reverse, hback]

theorem agreeOrGiveUp_furtherStatements {ex ex' : Rule Expr} (h : Agree ex ex')
    (hrefuses : ex.Refuses Token.opensExpression)
    (hcommits : ex.Commits fun token => token.opensExpression ∧ token.Legible) (n : Nat) :
    AgreeOrGiveUp (furtherStatements ex n) (Predictive.furtherStatements ex' n) := by
  induction n with
  | zero => exact fun _ _ _ _ _ => .tally .exhausted
  | succ n ih =>
    refine .bind agree_skipNewlines fun count => ?_
    split
    · exact fun c c' hc hlegible htwin => .tally (agree_pure [] c c' hc hlegible htwin)
    intro c c' hc hlegible htwin
    -- what each parser does with the token after the separators
    rw [Run.bind_apply, Run.bind_apply]
    simp only [attempt, look, htwin.peek]
    cases hopens : c.peek.opensExpression with
    | true =>
      rw [if_pos rfl, Run.bind_apply]
      have htally := h c c' hc hlegible htwin
      have hmoved := hcommits c hc ⟨hopens, hlegible.peek hc⟩
      generalize ex c = reply, ex' c' = reply' at htally hmoved
      cases htally with
      | @value e d d' twin reach log =>
        have hafter := ih.map (e :: ·) d d' (reach.ended hc) (reach.legible hlegible) twin
        exact hafter.from_earlier htwin twin reach log
      | @error e d d' reach reach' still clear log quiet =>
        obtain ⟨⟨⟩⟩ | hlt := hmoved
        obtain ⟨events, hevents, hrewound⟩ := log
        simp only [rewind_of_moved e clear hlt]
        refine .gaveUp ⟨reach.tokens, Nat.le_refl _, hc.inside⟩ reach' rfl ?_ ?_
        · have hcurrent : ({ d with
              index := c.index
              setback := some ⟨c.index, e⟩
              log := .rewound (d.index - c.index) e :: d.log } : Cursor).current = c.current := by
            simp only [Cursor.current, reach.tokens]
          rw [Cursor.peek, hcurrent]
          exact hopens
        · refine ⟨.rewound (d.index - c.index) e :: events, by rw [hevents]; rfl, ?_⟩
          intro event hevent
          rcases List.mem_cons.mp hevent with rfl | hevent
          · exact ⟨_, rfl⟩
          · exact hrewound event hevent
      | exhausted => exact .tally .exhausted
    | false =>
      rw [if_neg Bool.false_ne_true]
      rcases hrefuses c hopens with ⟨e, hr⟩ | hr
      · simp only [hr, Cursor.rewind, Nat.sub_self, Nat.lt_irrefl, if_false]
        exact .tally (agree_pure [] c c' hc hlegible htwin)
      · simp only [hr]
        exact .tally .exhausted

theorem agreeOrGiveUp_statementsOver {ex ex' : Rule Expr} (h : Agree ex ex')
    (hrefuses : ex.Refuses Token.opensExpression)
    (hcommits : ex.Commits fun token => token.opensExpression ∧ token.Legible) (n : Nat) :
    AgreeOrGiveUp (statementsOver ex n) (Predictive.statementsOver ex' n) :=
  .bind agree_skipNewlines fun _ => .bind h fun first =>
    (agreeOrGiveUp_furtherStatements h hrefuses hcommits n).map fun rest =>
      Expr.list (first :: rest) first.position

theorem agree_expression (n : Nat) : Agree (expression n) (Predictive.expression n) := by
  induction n with
  | zero => exact agree_exhausted
  | succ n ih =>
    exact agree_expressionOver ⟨ih, agreeOrGiveUp_statementsOver ih (refuses_expression n)
      (commits_expression n) n⟩ n

theorem agree_nested (n : Nat) : (nested n).Agree (Predictive.nested n) :=
  ⟨agree_expression n, agreeOrGiveUp_statementsOver (agree_expression n) (refuses_expression n)
    (commits_expression n) n⟩

/-- What a program leaves in the log was given up because of the error with which it ends. -/
theorem rewound_of_gaveUp {e e' : SyntaxError} {log : Log} {count : Nat} (h : GaveUp e [] log)
    (hmem : Event.rewound count e' ∈ log) : e' = e := by
  obtain ⟨events, hevents, hrewound⟩ := h
  rw [hevents, List.append_nil] at hmem
  obtain ⟨_, heq⟩ := hrewound _ hmem
  cases heq
  rfl

/-- Whole programs, from an empty log on: the parsers end alike, no record is left, and a statement
that was given up is the reason why there is no tree. -/
theorem programOver_agrees (hsub : sub.Agree sub') {c c' : Cursor} (hc : c.Ended)
    (hlegible : c.Legible) (htwin : Twin c c') (hlog : c.log = []) :
    (programOver sub c).1 = .exhausted ∨
      ((programOver sub' c').1 = (programOver sub c).1 ∧ (programOver sub c).2.setback = none ∧
        ∀ count e, .rewound count e ∈ (programOver sub c).2.log →
          (programOver sub c).1 = .error e) := by
  obtain ⟨-, htwin₁⟩ := htwin.skipNewlines
  have hreach := hc.reaches_skipNewlines
  have hlog₁ : c.skipNewlines.2.log = [] := (Cursor.log_skipNewlinesUpTo _ _).trans hlog
  have hc₁ := hreach.ended hc
  have hlegible₁ := hreach.legible hlegible
  rw [programOver_apply, programOver_apply, htwin₁.peek, htwin₁.position]
  -- nothing depends on the separators at the beginning
  generalize c.skipNewlines.2 = c₁, c'.skipNewlines.2 = c₁' at *
  by_cases hempty : c₁.peek = .eof
  · right
    rw [if_pos hempty, if_pos hempty]
    refine ⟨rfl, htwin₁.clear, ?_⟩
    intro count e hmem
    rw [hlog₁] at hmem
    cases hmem
  rw [if_neg hempty, if_neg hempty]
  have htally := hsub.statements c₁ c₁' hc₁ hlegible₁ htwin₁
  generalize sub.statements c₁ = reply, sub'.statements c₁' = reply' at htally
  cases htally with
  | tally htally =>
    cases htally with
    | @value tree d d' twin reach log =>
      right
      simp only [twin.peek]
      by_cases hended : d.peek = .eof
      · rw [if_pos hended, if_pos hended]
        refine ⟨rfl, twin.clear, ?_⟩
        intro count e hmem
        rw [log, hlog₁] at hmem
        rcases List.mem_cons.mp hmem with hmem | hmem <;> cases hmem
      · rw [if_neg hended, if_neg hended, failOr_of_clear _ twin.clear,
          failOr_of_clear _ twin.clear']
        refine ⟨by simp only [Cursor.unexpected, twin.peek, twin.position], twin.clear, ?_⟩
        intro count e hmem
        rw [log, hlog₁] at hmem
        cases hmem
    | @error e d d' reach reach' still clear log quiet =>
      right
      refine ⟨rfl, clear, ?_⟩
      intro count e' hmem
      rw [hlog₁] at log
      rw [rewound_of_gaveUp log hmem]
    | exhausted => exact .inl rfl
  | @gaveUp tree e d d' reach reach' recorded opens log =>
    -- the end of input opens no expression, so the record is taken and reported
    right
    have hended : d.peek ≠ .eof := Token.ne_eof_of_opensExpression opens
    have hsettled := settles_failOr (β := Expr) (·.unexpected "an operator or end of input") d e
      recorded opens
    simp only [if_neg hended, hsettled]
    refine ⟨trivial, trivial, ?_⟩
    intro count e' hmem
    rw [hlog₁] at log
    rw [rewound_of_gaveUp log hmem]

end Grammar

/-- Going back never changes what is accepted and never hides an error: reading by trial gives the
tree, or fails with the error, of the parser that looks one token ahead. A statement that was given
up after it had moved is the reason why there is no tree, and no record of it is left over. -/
theorem parse_eq_predict (tokens : List Located) (hend : EndsInput tokens)
    (hlegible : ∀ t ∈ tokens, t.token.Legible) :
    ((∃ tree, (parse tokens).1 = .value tree ∧ (predict tokens).1 = .value tree) ∨
      ∃ e, (parse tokens).1 = .error e ∧ (predict tokens).1 = .error e) ∧
    (∀ count e, .rewound count e ∈ (parse tokens).2.log → (parse tokens).1 = .error e) ∧
    (parse tokens).2.setback = none := by
  have hc := ended_ofTokens hend
  have hlegible' : (Cursor.ofTokens tokens).Legible := by
    intro t ht
    exact hlegible t (List.mem_toArray.mp ht)
  have htwin : Twin (.ofTokens tokens) (.ofTokens tokens) := ⟨rfl, rfl, rfl, rfl⟩
  -- both parsers start as twins, and neither comes to its bound
  have hagrees := Grammar.programOver_agrees (Grammar.agree_nested (Grammar.bound tokens.length))
    hc hlegible' htwin rfl
  have hruns := parse_ne_exhausted hend
  obtain ⟨hsame, hclear, hreason⟩ := hagrees.resolve_left hruns
  refine ⟨?_, hreason, hclear⟩
  cases houtcome : (parse tokens).1 with
  | value tree => exact .inl ⟨tree, rfl, hsame.trans houtcome⟩
  | error e => exact .inr ⟨e, rfl, hsame.trans houtcome⟩
  | exhausted => exact absurd houtcome hruns

/-- A loop whose second statement lacks its `=`. -/
def brokenLoop : List Located :=
  atStart [.int "1", .newline, .keyword .while_, .identifier "x", .keyword .then_, .newline,
    .identifier "x", .newline, .keyword .var, .identifier "x", .newline, .keyword .end_, .eof]

/-- The statement in the loop is given up, and then the loop itself; both parsers report the missing
`=`. -/
theorem broken_loop_reports_inner_error :
    EndsInput brokenLoop ∧ (∀ t ∈ brokenLoop, t.token.Legible) ∧
      (parse brokenLoop).2.log = [.rewound 6 (.unexpected "'='" .newline .start),
        .rewound 2 (.unexpected "'='" .newline .start)] ∧
      (predict brokenLoop).1 = .error (.unexpected "'='" .newline .start) := by
  have hend : EndsInput brokenLoop := ⟨brokenLoop.dropLast, .start, rfl⟩
  have hlegible : ∀ t ∈ brokenLoop, t.token.Legible := by
    simp only [brokenLoop, atStart, List.map_cons, List.forall_mem_cons, Token.Legible, true_and]
    exact ⟨rfl, nofun⟩
  have hlog : (parse brokenLoop).2.log = [.rewound 6 (.unexpected "'='" .newline .start),
      .rewound 2 (.unexpected "'='" .newline .start)] := rfl
  obtain ⟨hsame, hreason, -⟩ := parse_eq_predict brokenLoop hend hlegible
  refine ⟨hend, hlegible, hlog, ?_⟩
  have herror := hreason 2 (.unexpected "'='" .newline .start) (by rw [hlog]; simp)
  obtain ⟨tree, htree, -⟩ | ⟨e, he, he'⟩ := hsame
  · rw [herror] at htree
    cases htree
  · rw [herror] at he
    cases he
    exact he'

end LineScript
