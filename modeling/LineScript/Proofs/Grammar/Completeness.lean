import LineScript.Proofs.Grammar.Derivation

/-!
# Every text of a phrase is read

The converse of what `Rule.Yields` says: where the tokens begin with a text of a phrase, the rule
for the phrase gives its tree and stops at the end of the text. So `Reads` describes the parser
exactly.

  * `Reads.opens` gives the tokens with which a text can begin.
  * `Rule.Gives a ts rest rule`: on the tokens `ts` the rule gives `a` and leaves `rest`, unless it
    is at its bound.
  * `Phrase.Parsed` says this for the rule of each phrase, whatever its bounds; `Reads.parsed`
    proves it by induction on the text.
  * `parse_eq_value_iff` puts both directions together.

**Key idea.** Bounds play no part in the induction, since a rule at its bound is let off. That the
parser is never at its bound is known already (`parse_ne_exhausted`).
-/

namespace LineScript

open Grammar

/-! ### First tokens -/

/-- The tokens with which a text of a tier can begin. -/
def Tier.opens : Tier → Token → Bool
  | logical | comparison => Token.opensOperand
  | sum | product | factor => Token.opensFactor
  | power | call | atom => Token.opensAtom

theorem Token.opensFactor_of_opensAtom {token : Token} (h : token.opensAtom) :
    token.opensFactor := by
  unfold opensFactor
  split <;> first | rfl | exact h

theorem Token.opensOperand_of_opensFactor {token : Token} (h : token.opensFactor) :
    token.opensOperand := by
  unfold opensOperand
  split <;> first | rfl | exact h

theorem Token.opensExpression_of_opensOperand {token : Token} (h : token.opensOperand) :
    token.opensExpression := by
  unfold opensExpression
  split <;> first | rfl | exact h

/-- A tier can begin with whatever the tier below can begin with. -/
theorem Tier.opens_of_below {t : Tier} {token : Token} (h : t.below.opens token) :
    t.opens token := by
  cases t with
  | comparison => exact Token.opensOperand_of_opensFactor h
  | factor => exact Token.opensFactor_of_opensAtom h
  | _ => exact h

/-- The tokens with which a text of a phrase can begin, as far as they matter. -/
def Phrase.Opens : Phrase → Token → Prop
  | expression _, token => token.opensExpression
  | tier t _, token => t.opens token
  | _, _ => True

theorem Reads.opens {phrase : Phrase} {ts rest : List Located} (h : Reads phrase ts rest) :
    phrase.Opens (next ts) := by
  induction h with
  | assign => rfl
  | @logical e ts rest _ ih => exact Token.opensExpression_of_opensOperand ih
  | @unary op => cases op <;> rfl
  | operators _ _ _ ih => exact Tier.opens_of_below ih
  | call _ _ ih => exact ih
  | @number token value p rest hvalue =>
    cases token with
    | int | float => rfl
    | _ => cases hvalue
  | text | name | grouping | list | conditional | forTo | whileDo | function => rfl
  | _ => trivial

/-! ### Rules on lists of tokens -/

namespace Rule

open Run

variable {α β : Type} {ts mid rest : List Located}

/-- On the tokens `ts` the rule gives `a` and leaves `rest`, unless it is at its bound. -/
def Gives (a : α) (ts rest : List Located) (rule : Rule α) : Prop :=
  ∀ c : Cursor, c.Ended → c.rest = ts →
    (∃ d, rule c = (.value a, d) ∧ d.Ended ∧ d.rest = rest) ∨ (rule c).1 = .exhausted

theorem gives_pure (a : α) : Gives a ts ts (pure a : Rule α) :=
  fun c hc hts => .inl ⟨c, rfl, hc, hts⟩

theorem gives_exhausted {a : α} : Gives a ts rest (exhausted : Rule α) :=
  fun _ _ _ => .inr rfl

theorem Gives.bind {rule : Rule α} {next : α → Rule β} {a : α} {b : β} (h : Gives a ts mid rule)
    (hnext : Gives b mid rest (next a)) : Gives b ts rest (rule >>= next) := by
  intro c hc hts
  rw [Run.bind_apply]
  obtain ⟨d, hrun, hd, hmid⟩ | hbound := h c hc hts
  · rw [hrun]
    exact hnext d hd hmid
  · right
    rcases hr : rule c with ⟨a' | e | _, d⟩
    · rw [hr] at hbound
      cases hbound
    · rw [hr] at hbound
      cases hbound
    · rfl

/-- A rule that looks at the current token. -/
theorem gives_peek {next : Token → Rule α} {a : α}
    (h : Gives a ts rest (next (LineScript.next ts))) :
    Gives a ts rest (look Cursor.peek >>= next) := by
  intro c hc hts
  have hpeek : LineScript.next ts = c.peek := by rw [← hts, hc.next_rest]
  rw [hpeek] at h
  exact h c hc hts

/-- A rule that looks where the current token is. -/
theorem gives_position {token : Token} {p : Position} {next : Position → Rule α} {a : α}
    (h : Gives a (⟨token, p⟩ :: ts) rest (next p)) :
    Gives a (⟨token, p⟩ :: ts) rest (look Cursor.position >>= next) := by
  intro c hc hts
  have hplace : p = c.position := by
    have hfirst := hc.rest_eq
    rw [hts] at hfirst
    exact congrArg Located.position (List.cons.inj hfirst).1
  rw [hplace] at h hts
  exact h c hc hts

/-- A rule that looks for the token that is there. -/
theorem gives_seen {token : Token} {yes no : Rule α} {a : α} (hnext : LineScript.next ts = token)
    (h : Gives a ts rest yes) :
    Gives a ts rest (sees token >>= fun seen => if seen = true then yes else no) := by
  intro c hc hts
  have hpeek : c.peek = token := by rw [← hc.next_rest, hts, hnext]
  have hrun : (sees token >>= fun seen => if seen = true then yes else no) c = yes c := by
    rw [Run.bind_apply]
    simp only [sees, look, decide_eq_true hpeek, if_true]
  rw [hrun]
  exact h c hc hts

/-- A rule that looks for a token that is not there. -/
theorem gives_unseen {token : Token} {yes no : Rule α} {a : α} (hnext : LineScript.next ts ≠ token)
    (h : Gives a ts rest no) :
    Gives a ts rest (sees token >>= fun seen => if seen = true then yes else no) := by
  intro c hc hts
  have hpeek : c.peek ≠ token := by rw [← hc.next_rest, hts]; exact hnext
  have hrun : (sees token >>= fun seen => if seen = true then yes else no) c = no c := by
    rw [Run.bind_apply]
    simp only [sees, look, decide_eq_false hpeek, Bool.false_eq_true, if_false]
  rw [hrun]
  exact h c hc hts

/-- A rule that moves past a token, and goes on with it. -/
theorem gives_advance {token : Token} {p : Position} {next : Located → Rule α} {a : α}
    (hne : token ≠ .eof) (h : Gives a mid rest (next ⟨token, p⟩)) :
    Gives a (⟨token, p⟩ :: mid) rest (advance >>= next) := by
  intro c hc hts
  have hpeek : c.peek = token := by rw [← hc.next_rest, hts]; rfl
  have hcons := hc.rest_eq_cons_advance (hpeek ▸ hne)
  rw [hts] at hcons
  obtain ⟨hcurrent, hrest⟩ := List.cons.inj hcons
  rw [hcurrent] at h
  exact h c.advance (hc.reaches_advance.ended hc) hrest.symm

theorem gives_expect (token : Token) {expected : String} {p : Position} (hne : token ≠ .eof) :
    Gives p (⟨token, p⟩ :: rest) rest (expect token expected) :=
  gives_seen rfl (gives_advance hne (gives_pure _))

theorem gives_keyword (word : Keyword) {p : Position} :
    Gives p (⟨.keyword word, p⟩ :: rest) rest (expectKeyword word) :=
  gives_expect _ nofun

theorem gives_symbol (mark : Symbol) {p : Position} :
    Gives p (⟨.symbol mark, p⟩ :: rest) rest (expectSymbol mark) :=
  gives_expect _ nofun

theorem gives_expectIdentifier {name : String} {p : Position} :
    Gives name (⟨.identifier name, p⟩ :: rest) rest expectIdentifier :=
  gives_peek (gives_advance nofun (gives_pure _))

theorem gives_skipNewlines_bind {next : Nat → Rule α} {a : α}
    (h : ∀ count, (count = 0 ↔ LineScript.next ts ≠ .newline) →
      Gives a (ts.dropWhile Located.isNewline) rest (next count)) :
    Gives a ts rest (skipNewlines >>= next) := by
  intro c hc hts
  have hcount := hc.skipNewlines_eq_zero
  rw [← hc.next_rest, hts] at hcount
  refine h c.skipNewlines.1 hcount c.skipNewlines.2 (hc.reaches_skipNewlines.ended hc) ?_
  rw [hc.rest_skipNewlines, hts]

theorem Gives.expecting {rule : Rule α} {a : α} (h : Gives a ts rest rule) (expected : String) :
    Gives a ts rest (expecting expected rule) := by
  intro c hc hts
  unfold Rule.expecting
  obtain ⟨d, hrun, hd⟩ | hbound := h c hc hts
  · rw [hrun]
    exact .inl ⟨d, rfl, hd⟩
  · right
    rcases hr : rule c with ⟨a' | e | _, d⟩
    · rw [hr] at hbound
      cases hbound
    · rw [hr] at hbound
      cases hbound
    · rfl

/-- The last of several items. -/
theorem gives_items_last {item : Rule α} {a : α} {closing : Symbol} {p : Position} (n : Nat)
    (hclosing : closing ≠ .comma) (h : Gives a ts (⟨.symbol closing, p⟩ :: rest) item) :
    Gives [a] ts rest (items item closing n) := by
  cases n with
  | zero => exact gives_exhausted
  | succ n =>
    refine h.bind (gives_peek ?_)
    have hcomma : Token.symbol closing ≠ .symbol .comma := by simpa using hclosing
    rw [next_cons, if_neg hcomma, if_pos rfl]
    exact gives_advance nofun (gives_pure _)

/-- An item before others. -/
theorem gives_items_more {item : Rule α} {a : α} {as : List α} {closing : Symbol} {p : Position}
    (n : Nat) (h : Gives a ts (⟨.symbol .comma, p⟩ :: mid) item)
    (hrest : ∀ m, Gives as mid rest (items item closing m)) :
    Gives (a :: as) ts rest (items item closing n) := by
  cases n with
  | zero => exact gives_exhausted
  | succ n =>
    refine h.bind (gives_peek ?_)
    rw [next_cons, if_pos rfl]
    exact gives_advance nofun ((hrest n).bind (gives_pure _))

/-- Items that are read one by one are read as a list. -/
theorem gives_items {item : Rule α} {R : α → List Located → List Located → Prop}
    (hitem : ∀ a ts rest, R a ts rest → Gives a ts rest item) {closing : Symbol} {as : List α}
    (h : Listed R closing as ts rest) (hclosing : closing ≠ .comma) (n : Nat) :
    Gives as ts rest (items item closing n) := by
  induction h generalizing n with
  | last hlast => exact gives_items_last n hclosing (hitem _ _ _ hlast)
  | more hfirst _ ih => exact gives_items_more n (hitem _ _ _ hfirst) ih

end Rule

/-! ### The rules of the grammar -/

namespace Grammar

open Run Rule

/-- The rule for a tier, with one bound for exponents and one for all else. -/
def tierRule (sub : Nested) (k m : Nat) : Tier → Rule Expr
  | .logical => logical sub m
  | .comparison => comparison sub m
  | .sum => sum sub m
  | .product => product sub m
  | .factor => factor sub m
  | .power => power sub (factor sub k) m
  | .call => call sub m
  | .atom => atom sub m

end Grammar

open Rule in
/-- The rule for a phrase reads the text of it, whatever its bounds. -/
def Phrase.Parsed : Phrase → List Located → List Located → Prop
  | expression e, ts, rest => ∀ n, Gives e ts rest (Grammar.expression n)
  | tier t e, ts, rest => ∀ n k m, Gives e ts rest (tierRule (nested n) k m t)
  | chain t left e, ts, rest => ∀ n k m l,
    Gives e ts rest (Grammar.chain t.accepts (tierRule (nested n) k m t.operand) l left)
  | statements e, ts, rest => ∀ n m, Gives e ts rest (statementsOver (Grammar.expression n) m)
  | further es, ts, rest => ∀ n m, Gives es ts rest (furtherStatements (Grammar.expression n) m)
  | items closing es, ts, rest => closing ≠ .comma → ∀ n m,
    Gives es ts rest (Rule.items (Grammar.expression n) closing m)
  | separated closing es, ts, rest => closing = .rparen ∨ closing = .rbracket → ∀ n m,
    Gives es ts rest (Rule.separated (Grammar.expression n) closing m)
  | signature _ _, _, _ => True
  | body b, ts, rest => ∀ n word, Gives b ts rest (Grammar.body (nested n) word)
  | functionBody b, ts, rest => ∀ n, Gives b ts rest (Grammar.functionBody (nested n))
  | case condition b others, ts, rest => ∀ n m word p,
    Gives (condition, b, others) (⟨.keyword word, p⟩ :: ts) rest (ifCase (nested n) m word)
  | after others, ts, rest => ∀ n m,
    Gives others ts rest (afterCase (nested n) (ifCase (nested n) m .elif))
  | step by_, ts, rest => ∀ n, Gives by_ ts rest (Grammar.step (nested n))

namespace Grammar

open Run Rule

section parsed

variable {ts mid rest : List Located} {e first : Expr}

theorem next_ne_of_opens {token : Token} (h : (Phrase.expression e).Opens (next ts))
    (htoken : token.opensExpression = false) : next ts ≠ token := by
  intro heq
  rw [Phrase.Opens, heq, htoken] at h
  cases h

/-- A tier whose rule is a chain over the tier below. -/
theorem gives_leftAssociative {accepts : BinaryOperator → Bool} {operand : Rule Expr} {n : Nat}
    (hfirst : operand.Gives first ts mid)
    (hchain : (chain accepts operand n first).Gives e mid rest) :
    (leftAssociative accepts operand n).Gives e ts rest :=
  hfirst.bind hchain

/-- The tiers without operators of their own add nothing. -/
theorem chain_eq_of_none {t : Tier} {left : Expr} (ht : ∀ op, t.accepts op = false)
    (h : Reads (.chain t left e) ts rest) :
    e = left ∧ ts = rest ∧ t.continues (next rest) = false := by
  cases h with
  | link haccepts => rw [ht] at haccepts; cases haccepts
  | stop hends => exact ⟨rfl, rfl, hends⟩

/-- A text of a tier that begins with a text of the tier below. -/
theorem parsed_operators {t : Tier} (hloose : t ≠ .atom)
    (hreads : Reads (.tier t.below first) ts mid)
    (hfirst : (Phrase.tier t.below first).Parsed ts mid)
    (hreads' : Reads (.chain t first e) mid rest)
    (hchain : (Phrase.chain t first e).Parsed mid rest) :
    (Phrase.tier t e).Parsed ts rest := by
  intro n k m
  have hopens := hreads.opens
  -- four tiers are chains over the tier below; the other three have a rule of their own
  cases t with
  | logical => exact gives_leftAssociative (hfirst n k m) (hchain n k m m)
  | comparison =>
    cases m with
    | zero => exact gives_exhausted
    | succ m =>
      refine gives_unseen ?_
        (gives_leftAssociative (hfirst n k (m + 1)) (hchain n k (m + 1) (m + 1)))
      -- what begins a sum is no `!`
      intro hbang
      rw [Phrase.Opens, hbang] at hopens
      cases hopens
  | sum => exact gives_leftAssociative (hfirst n k m) (hchain n k m m)
  | product => exact gives_leftAssociative (hfirst n k m) (hchain n k m m)
  | factor =>
    cases m with
    | zero => exact gives_exhausted
    | succ m =>
      -- a factor has no operator after it, so its chain is empty
      obtain ⟨rfl, rfl, -⟩ := chain_eq_of_none (fun _ => rfl) hreads'
      have hsign : sign? (next ts) = none := by
        unfold sign?
        split
        · next hplus => rw [Phrase.Opens, hplus] at hopens; cases hopens
        · next hminus => rw [Phrase.Opens, hminus] at hopens; cases hopens
        · rfl
      refine gives_peek ?_
      rw [hsign]
      exact hfirst n m (m + 1)
  | power => exact (hfirst n k m).bind (hchain n m k m)
  | call =>
    obtain ⟨rfl, rfl, hends⟩ := chain_eq_of_none (fun _ => rfl) hreads'
    exact (hfirst n k m).bind (gives_unseen (of_decide_eq_false hends) (gives_pure _))
  | atom => exact absurd rfl hloose

theorem parsed_link {t : Tier} {op : BinaryOperator} {left right : Expr} {p : Position}
    (haccepts : t.accepts op) (hright : (Phrase.tier t.operand right).Parsed ts mid)
    (hchain : (Phrase.chain t (.binary op left right left.position) e).Parsed mid rest) :
    (Phrase.chain t left e).Parsed (⟨.symbol op.symbol, p⟩ :: ts) rest := by
  intro n k m l
  cases l with
  | zero => exact gives_exhausted
  | succ l =>
    have hop : (BinaryOperator.ofToken? (.symbol op.symbol)).filter t.accepts = some op := by
      rw [BinaryOperator.ofToken?_eq_some_iff.mpr rfl, Option.filter_some, if_pos haccepts]
    refine gives_peek ?_
    rw [next_cons, hop]
    exact gives_advance nofun ((hright n k m).bind (hchain n k m l))

theorem parsed_stop {t : Tier} (hends : t.continues (next rest) = false) :
    (Phrase.chain t e e).Parsed rest rest := by
  intro n k m l
  cases l with
  | zero => exact gives_exhausted
  | succ l =>
    have hop : (BinaryOperator.ofToken? (next rest)).filter t.accepts = none := by
      cases t with
      | call => cases BinaryOperator.ofToken? (next rest) <;> rfl
      | _ => exact Option.not_isSome_iff_eq_none.mp (ne_true_of_eq_false hends)
    refine gives_peek ?_
    rw [hop]
    exact gives_pure _

theorem parsed_unary {op : UnaryOperator} {p : Position}
    (he : (Phrase.tier op.tier e).Parsed ts rest) :
    (Phrase.tier op.tier (.unary op e p)).Parsed (⟨.symbol op.symbol, p⟩ :: ts) rest := by
  intro n k m
  cases m with
  | zero => cases op <;> exact gives_exhausted
  | succ m =>
    have hoperand := he n k m
    cases op with
    | not => exact gives_seen rfl (gives_advance nofun (hoperand.bind (gives_pure _)))
    | plus => exact gives_peek (gives_advance nofun (hoperand.bind (gives_pure _)))
    | negate => exact gives_peek (gives_advance nofun (hoperand.bind (gives_pure _)))

theorem parsed_call {callee : Expr} {arguments : List Expr} {p : Position}
    (hcallee : (Phrase.tier .atom callee).Parsed ts (⟨.symbol .lparen, p⟩ :: mid))
    (harguments : (Phrase.separated .rparen arguments).Parsed mid rest) :
    (Phrase.tier .call (.call callee arguments callee.position)).Parsed ts rest := by
  intro n k m
  refine (hcallee n k m).bind (gives_seen rfl (gives_advance nofun ?_))
  exact (harguments (.inl rfl) n m).bind (gives_pure _)

theorem parsed_number {token : Token} {value : Float} {p : Position}
    (hvalue : token.number? = some value) :
    (Phrase.tier .atom (.number value p)).Parsed (⟨token, p⟩ :: rest) rest := by
  intro n k m
  refine gives_peek ?_
  have hliteral : ∀ {token : Token} {text : String}, token ≠ .eof → Number.read? text = some value →
      (numberLiteral text).Gives (.number value p) (⟨token, p⟩ :: rest) rest := by
    intro token text hne htext
    unfold numberLiteral
    rw [htext]
    exact gives_advance hne (gives_pure _)
  cases token with
  | int text => exact hliteral nofun hvalue
  | float text => exact hliteral nofun hvalue
  | _ => cases hvalue

/-! #### Constructs -/

theorem parsed_forTo {var : String} {start stop : Expr} {by_ : Option Expr} {b : Body}
    {p q r u v : Position} {ts₁ ts₂ ts₃ : List Located}
    (hstart : (Phrase.expression start).Parsed ts (⟨.keyword .to_, u⟩ :: ts₁))
    (hstop : (Phrase.expression stop).Parsed ts₁ ts₂)
    (hstep : (Phrase.step by_).Parsed ts₂ (⟨.keyword .then_, v⟩ :: ts₃))
    (hbody : (Phrase.body b).Parsed ts₃ rest) :
    (Phrase.tier .atom (.forTo var start stop by_ b p)).Parsed
      (⟨.keyword .for_, p⟩ :: ⟨.identifier var, q⟩ :: ⟨.symbol .equals, r⟩ :: ts) rest := by
  intro n k m
  refine gives_peek ((gives_keyword .for_).bind (gives_expectIdentifier.bind ?_))
  refine (gives_symbol .equals).bind ((hstart n).bind ((gives_keyword .to_).bind ?_))
  refine (hstop n).bind ((hstep n).bind ((gives_keyword .then_).bind ?_))
  exact (hbody n .for_).bind (gives_pure _)

theorem parsed_whileDo {condition : Expr} {b : Body} {p q : Position}
    (hcondition : (Phrase.expression condition).Parsed ts (⟨.keyword .then_, q⟩ :: mid))
    (hbody : (Phrase.body b).Parsed mid rest) :
    (Phrase.tier .atom (.whileDo condition b p)).Parsed (⟨.keyword .while_, p⟩ :: ts) rest := by
  intro n k m
  refine gives_peek ((gives_keyword .while_).bind ((hcondition n).bind ?_))
  exact (gives_keyword .then_).bind ((hbody n .while_).bind (gives_pure _))

theorem gives_optionalName_none {q : Position} :
    optionalName.Gives none (⟨.symbol .lparen, q⟩ :: rest) (⟨.symbol .lparen, q⟩ :: rest) :=
  gives_peek (gives_pure _)

theorem gives_optionalName_some {name : String} {p : Position} :
    optionalName.Gives (some name) (⟨.identifier name, p⟩ :: rest) rest :=
  gives_peek (gives_advance nofun (gives_pure _))

/-- The parameters after the name of a function, and what comes after them. -/
theorem gives_params {expected : String} {params : List String} {next : List String → Rule Expr}
    (n : Nat) (h : Reads (.signature none params) ts mid) (hnext : (next params).Gives e mid rest) :
    (do
      let _ ← expect (.symbol .lparen) expected
      let params ← separated expectIdentifier .rparen n
      next params : Rule Expr).Gives e ts rest := by
  cases h with
  | noParams =>
    refine (gives_expect (.symbol .lparen) nofun).bind (Gives.bind (gives_seen rfl ?_) hnext)
    exact gives_advance nofun (gives_pure _)
  | params hparams =>
    refine (gives_expect (.symbol .lparen) nofun).bind (Gives.bind (gives_unseen ?_ ?_) hnext)
    · -- the first parameter is a name
      cases hparams with
      | last hitem => obtain ⟨_, rfl⟩ := hitem; nofun
      | more hitem => obtain ⟨_, rfl⟩ := hitem; nofun
    · refine gives_items ?_ hparams nofun n
      rintro name ts rest ⟨p, rfl⟩
      exact gives_expectIdentifier

theorem parsed_function {name : Option String} {params : List String} {b : Body} {p : Position}
    (hsignature : Reads (.signature name params) ts mid)
    (hbody : (Phrase.functionBody b).Parsed mid rest) :
    (Phrase.tier .atom (.function name params b p)).Parsed
      (⟨.keyword .function, p⟩ :: ts) rest := by
  intro n k m
  refine gives_peek ((gives_keyword .function).bind ?_)
  have hafter (name : Option String) : (functionBody (nested n) >>= fun b =>
      pure (Expr.function name params b p) : Rule Expr).Gives
        (.function name params b p) mid rest :=
    (hbody n).bind (gives_pure _)
  cases hsignature with
  | named hparams => exact gives_optionalName_some.bind (gives_params m hparams (hafter _))
  | noParams => exact gives_optionalName_none.bind (gives_params m .noParams (hafter _))
  | params hparams =>
    exact gives_optionalName_none.bind (gives_params m (.params hparams) (hafter _))

theorem parsed_arrow {p : Position} (he : (Phrase.expression e).Parsed ts rest) :
    (Phrase.functionBody (.inline e)).Parsed (⟨.symbol .arrow, p⟩ :: ts) rest :=
  fun n => gives_seen rfl (gives_advance nofun ((he n).bind (gives_pure _)))

theorem gives_block {p : Position} {n : Nat}
    (he : (Phrase.statements e).Parsed ts rest) :
    (block (nested n)).Gives (.block e) (⟨.newline, p⟩ :: ts) rest :=
  (gives_expect .newline nofun).bind ((he n n).bind (gives_pure _))

/-- A block and its `END`. -/
theorem gives_closedBlock {p q : Position} {n : Nat} (word : Keyword)
    (he : (Phrase.statements e).Parsed ts (⟨.keyword .end_, q⟩ :: rest)) :
    (do
      let b ← block (nested n)
      blockEnd word
      pure b : Rule Body).Gives (.block e) (⟨.newline, p⟩ :: ts) rest :=
  (gives_block he).bind
    (Gives.bind (gives_seen rfl (gives_advance nofun (gives_pure _))) (gives_pure _))

theorem parsed_block {p q : Position}
    (he : (Phrase.statements e).Parsed ts (⟨.keyword .end_, q⟩ :: rest)) :
    (Phrase.body (.block e)).Parsed (⟨.newline, p⟩ :: ts) rest :=
  fun _ word => gives_seen rfl (gives_closedBlock word he)

theorem parsed_inline (hreads : Reads (.expression e) ts rest)
    (he : (Phrase.expression e).Parsed ts rest) : (Phrase.body (.inline e)).Parsed ts rest := by
  intro n word
  have hnewline : next ts ≠ .newline := next_ne_of_opens hreads.opens rfl
  exact gives_unseen hnewline ((he n).bind (gives_pure _))

theorem parsed_functionBlock {p q : Position}
    (he : (Phrase.statements e).Parsed ts (⟨.keyword .end_, q⟩ :: rest)) :
    (Phrase.functionBody (.block e)).Parsed (⟨.newline, p⟩ :: ts) rest :=
  fun _ => gives_unseen nofun (gives_seen rfl (gives_closedBlock .function he))

/-! #### Conditionals -/

section conditional

variable {condition : Expr} {b : Body} {chain : Chain} {p q r : Position} {ts₁ ts₂ : List Located}

theorem parsed_inlineCase (hreads : Reads (.expression e) ts₁ ts₂)
    (hcondition : (Phrase.expression condition).Parsed ts (⟨.keyword .then_, p⟩ :: ts₁))
    (he : (Phrase.expression e).Parsed ts₁ ts₂) (hchain : (Phrase.after chain).Parsed ts₂ rest) :
    (Phrase.case condition (.inline e) chain).Parsed ts rest := by
  intro n m word u
  cases m with
  | zero => exact gives_exhausted
  | succ m =>
    have hnewline : next ts₁ ≠ .newline := next_ne_of_opens hreads.opens rfl
    refine (gives_keyword word).bind ((hcondition n).bind ((gives_keyword .then_).bind ?_))
    refine gives_unseen hnewline (Gives.bind ((he n).bind (gives_pure _)) ?_)
    exact (hchain n m).bind (gives_pure _)

theorem parsed_lastBlock
    (hcondition : (Phrase.expression condition).Parsed ts
      (⟨.keyword .then_, p⟩ :: ⟨.newline, q⟩ :: ts₁))
    (he : (Phrase.statements e).Parsed ts₁ (⟨.keyword .end_, r⟩ :: rest)) :
    (Phrase.case condition (.block e) .done).Parsed ts rest := by
  intro n m word u
  cases m with
  | zero => exact gives_exhausted
  | succ m =>
    refine (gives_keyword word).bind ((hcondition n).bind ((gives_keyword .then_).bind ?_))
    refine gives_seen rfl ((gives_block he).bind (gives_seen rfl ?_))
    exact gives_advance nofun (gives_pure _)

/-- A further branch begins with `ELIF` or `ELSE`. -/
theorem next_of_after (hmore : chain ≠ .done) (h : Reads (.after chain) ts rest) :
    next ts = .keyword .elif ∨ next ts = .keyword .else_ := by
  cases h with
  | elif => exact .inl rfl
  | otherwise => exact .inr rfl
  | done => exact absurd rfl hmore

theorem parsed_blockCase (hmore : chain ≠ .done) (hreads : Reads (.after chain) ts₂ rest)
    (hcondition : (Phrase.expression condition).Parsed ts
      (⟨.keyword .then_, p⟩ :: ⟨.newline, q⟩ :: ts₁))
    (he : (Phrase.statements e).Parsed ts₁ ts₂) (hchain : (Phrase.after chain).Parsed ts₂ rest) :
    (Phrase.case condition (.block e) chain).Parsed ts rest := by
  intro n m word u
  cases m with
  | zero => exact gives_exhausted
  | succ m =>
    have hnext := next_of_after hmore hreads
    -- the rule looks for `END` first, and only then for a further branch
    have hend : next ts₂ ≠ .keyword .end_ := by
      obtain hnext | hnext := hnext <;> rw [hnext] <;> nofun
    refine (gives_keyword word).bind ((hcondition n).bind ((gives_keyword .then_).bind ?_))
    refine gives_seen rfl ((gives_block he).bind (gives_unseen hend ?_))
    intro c hc hts
    have hpeek : c.peek = .keyword .elif ∨ c.peek = .keyword .else_ := by
      rw [← hc.next_rest, hts]
      exact hnext
    have hseen :
        (decide (c.peek = .keyword .elif) || decide (c.peek = .keyword .else_)) = true := by
      simpa using hpeek
    simp only [seesKeyword, sees, look, Run.bind_apply, hseen, if_true]
    exact ((hchain n m).bind (gives_pure (condition, Body.block e, chain))) c hc hts

theorem parsed_elif (hcase : (Phrase.case condition b chain).Parsed ts rest) :
    (Phrase.after (.elif condition b chain)).Parsed (⟨.keyword .elif, p⟩ :: ts) rest :=
  fun n m => gives_seen rfl ((hcase n m .elif p).bind (gives_pure _))

theorem parsed_otherwise (hbody : (Phrase.body b).Parsed ts rest) :
    (Phrase.after (.otherwise b)).Parsed (⟨.keyword .else_, p⟩ :: ts) rest :=
  fun n _ => gives_unseen nofun (gives_seen rfl (gives_advance nofun
    ((hbody n .else_).bind (gives_pure _))))

theorem parsed_done (hnoElif : next rest ≠ .keyword .elif) (hnoElse : next rest ≠ .keyword .else_) :
    (Phrase.after .done).Parsed rest rest :=
  fun _ _ => gives_unseen hnoElif (gives_unseen hnoElse (gives_pure _))

theorem parsed_conditional (hcase : (Phrase.case condition b chain).Parsed ts rest) :
    (Phrase.tier .atom (.ifThen condition b chain p)).Parsed (⟨.keyword .if_, p⟩ :: ts) rest := by
  intro n k m
  exact gives_peek (gives_position ((hcase n m .if_ p).bind (gives_pure _)))

end conditional

/-! #### Statements -/

/-- An attempt of a rule that reads something. -/
theorem Gives.attempt {rule : Rule Expr} (h : rule.Gives e ts rest) :
    (attempt rule).Gives (some e) ts rest := by
  intro c hc hts
  unfold Rule.attempt
  obtain ⟨d, hrun, hd⟩ | hbound := h c hc hts
  · rw [hrun]
    exact .inl ⟨d, rfl, hd⟩
  · right
    rcases hr : rule c with ⟨a | e | _, d⟩
    · rw [hr] at hbound
      cases hbound
    · rw [hr] at hbound
      cases hbound
    · rfl

/-- Where no expression can start, an attempt ends without a trace. -/
theorem gives_attempt_none (n : Nat) (hends : (next ts).opensExpression = false) :
    (attempt (expression n)).Gives none ts ts := by
  intro c hc hts
  rw [← hts, hc.next_rest] at hends
  unfold Rule.attempt
  obtain ⟨error, hrun⟩ | hrun := refuses_expression n c hends
  · have hback : c.rewind c.index error = c := by
      simp [Cursor.rewind]
    rw [hrun]
    refine .inl ⟨c, ?_, hc, hts⟩
    show (Outcome.value none, c.rewind c.index error) = (.value none, c)
    rw [hback]
  · right
    rw [hrun]

theorem parsed_noFurther
    (hends : (next (ts.dropWhile Located.isNewline)).opensExpression = false) :
    (Phrase.further []).Parsed ts (ts.dropWhile Located.isNewline) := by
  intro n m
  cases m with
  | zero => exact gives_exhausted
  | succ m =>
    refine gives_skipNewlines_bind fun count hcount => ?_
    split
    · exact gives_pure _
    · exact (gives_attempt_none n hends).bind (gives_pure _)

theorem parsed_further {es : List Expr} {p : Position}
    (he : (Phrase.expression e).Parsed (ts.dropWhile Located.isNewline) mid)
    (hes : (Phrase.further es).Parsed mid rest) :
    (Phrase.further (e :: es)).Parsed (⟨.newline, p⟩ :: ts) rest := by
  intro n m
  cases m with
  | zero => exact gives_exhausted
  | succ m =>
    refine gives_skipNewlines_bind fun count hcount => ?_
    have hne : count ≠ 0 := fun hzero => hcount.mp hzero rfl
    rw [if_neg hne]
    exact (Gives.attempt (he n)).bind ((hes n m).bind (gives_pure _))

theorem parsed_statements {es : List Expr}
    (he : (Phrase.expression e).Parsed (ts.dropWhile Located.isNewline) mid)
    (hes : (Phrase.further es).Parsed mid rest) :
    (Phrase.statements (.list (e :: es) e.position)).Parsed ts rest :=
  fun n m => gives_skipNewlines_bind fun _ _ => (he n).bind ((hes n m).bind (gives_pure _))

/-! #### Expressions -/

theorem parsed_assign {name : String} {value : Expr} {p q r : Position}
    (hvalue : (Phrase.expression value).Parsed ts rest) :
    (Phrase.expression (.assign name value p)).Parsed
      (⟨.keyword .var, p⟩ :: ⟨.identifier name, q⟩ :: ⟨.symbol .equals, r⟩ :: ts) rest := by
  intro n
  cases n with
  | zero => exact gives_exhausted
  | succ n =>
    refine gives_seen rfl ((gives_keyword .var).bind (gives_expectIdentifier.bind ?_))
    exact (gives_symbol .equals).bind ((hvalue n).bind (gives_pure _))

theorem parsed_logical (hreads : Reads (.tier .logical e) ts rest)
    (he : (Phrase.tier .logical e).Parsed ts rest) : (Phrase.expression e).Parsed ts rest := by
  intro n
  cases n with
  | zero => exact gives_exhausted
  | succ n =>
    have hvar : next ts ≠ .keyword .var := by
      intro hnext
      have hopens := hreads.opens
      rw [Phrase.Opens, hnext] at hopens
      cases hopens
    exact gives_unseen hvar (Gives.expecting (he n n n) _)

theorem parsed_items {closing : Symbol} {es : List Expr}
    (hreads : Reads (.items closing es) ts rest)
    (hes : (Phrase.items closing es).Parsed ts rest) :
    (Phrase.separated closing es).Parsed ts rest := by
  intro hclosing n m
  have hcomma : closing ≠ .comma := by
    rintro rfl
    simp at hclosing
  have hopens : (next ts).opensExpression := by
    cases hreads with
    | last he => exact he.opens
    | more he => exact he.opens
  refine gives_unseen ?_ (hes hcomma n m)
  intro hnext
  rw [hnext] at hopens
  obtain rfl | rfl := hclosing <;> cases hopens

end parsed

end Grammar

/-- **Completeness.** The rule for a phrase reads every text of it. -/
theorem Reads.parsed {phrase : Phrase} {ts rest : List Located} (h : Reads phrase ts rest) :
    phrase.Parsed ts rest := by
  -- one case for each way to write a phrase; the bounds are arbitrary throughout
  induction h with
  | assign _ ih => exact parsed_assign ih
  | logical he ih => exact parsed_logical he ih
  | unary _ ih => exact parsed_unary ih
  | operators hloose hfirst hchain ih ih' => exact parsed_operators hloose hfirst ih hchain ih'
  | link haccepts _ _ ih ih' => exact parsed_link haccepts ih ih'
  | stop hends => exact parsed_stop hends
  | call _ _ ih ih' => exact parsed_call ih ih'
  | number hvalue => exact parsed_number hvalue
  | text => exact fun _ _ _ => Rule.gives_peek (Rule.gives_advance nofun (Rule.gives_pure _))
  | name => exact fun _ _ _ => Rule.gives_peek (Rule.gives_advance nofun (Rule.gives_pure _))
  | grouping _ ih =>
    exact fun n _ _ => Rule.gives_peek ((Rule.gives_symbol .lparen).bind ((ih n).bind
      ((Rule.gives_symbol .rparen).bind (Rule.gives_pure _))))
  | list _ ih =>
    exact fun n _ m => Rule.gives_peek ((Rule.gives_symbol .lbracket).bind
      ((ih (.inr rfl) n m).bind (Rule.gives_pure _)))
  | conditional _ ih => exact parsed_conditional ih
  | forTo _ _ _ _ ih₁ ih₂ ih₃ ih₄ => exact parsed_forTo ih₁ ih₂ ih₃ ih₄
  | whileDo _ _ ih ih' => exact parsed_whileDo ih ih'
  | function hsignature _ _ ih => exact parsed_function hsignature ih
  | named => trivial
  | noParams => trivial
  | params => trivial
  | arrow _ ih => exact parsed_arrow ih
  | functionBlock _ ih => exact parsed_functionBlock ih
  | inline he ih => exact parsed_inline he ih
  | block _ ih => exact parsed_block ih
  | inlineCase _ he _ ih₁ ih₂ ih₃ => exact parsed_inlineCase he ih₁ ih₂ ih₃
  | lastBlock _ _ ih ih' => exact parsed_lastBlock ih ih'
  | blockCase _ _ hmore hchain ih₁ ih₂ ih₃ => exact parsed_blockCase hmore hchain ih₁ ih₂ ih₃
  | elif _ ih => exact parsed_elif ih
  | otherwise _ ih => exact parsed_otherwise ih
  | done hnoElif hnoElse => exact parsed_done hnoElif hnoElse
  | step _ ih =>
    exact fun n => Rule.gives_seen rfl (Rule.gives_advance nofun ((ih n).bind (Rule.gives_pure _)))
  | noStep hends => exact fun _ => Rule.gives_unseen hends (Rule.gives_pure _)
  | statements _ _ ih ih' => exact parsed_statements ih ih'
  | further _ _ ih ih' => exact parsed_further ih ih'
  | noFurther hends => exact parsed_noFurther hends
  | noItems =>
    exact fun _ _ _ => Rule.gives_seen rfl (Rule.gives_advance nofun (Rule.gives_pure _))
  | items hes ih => exact parsed_items hes ih
  | last _ ih => exact fun hclosing n m => Rule.gives_items_last m hclosing (ih n)
  | more _ _ ih ih' =>
    exact fun hclosing n m => Rule.gives_items_more m (ih n) fun l => ih' hclosing n l

/-! ### Whole programs -/

/-- A program is read as its tree. -/
theorem parse_of_readsProgram {tokens rest : List Located} {tree : Expr} (hend : EndsInput tokens)
    (h : ReadsProgram tree tokens rest) : (parse tokens).1 = .value tree := by
  have hc := ended_ofTokens hend
  have hskip := hc.rest_skipNewlines
  have hc₁ := hc.reaches_skipNewlines.ended hc
  have hruns := parse_ne_exhausted hend
  rw [rest_ofTokens] at hskip
  unfold parse at hruns ⊢
  rw [programOver_apply] at hruns ⊢
  generalize (Cursor.ofTokens tokens).skipNewlines.2 = c₁ at *
  cases h with
  | @empty p tokens rest hempty =>
    have hcurrent : c₁.current = ⟨.eof, p⟩ := by
      rw [hempty, hc₁.rest_eq] at hskip
      exact (List.cons.inj hskip).1
    have hpeek : c₁.peek = .eof := by rw [Cursor.peek, hcurrent]
    have hplace : c₁.position = p := by rw [Cursor.position, hcurrent]
    rw [if_pos hpeek, hplace]
  | @statements tree p tokens rest htree =>
    -- the separators have been skipped already; skipping them again changes nothing
    have hstatements : Reads (.statements tree) c₁.rest (⟨.eof, p⟩ :: rest) := by
      rw [hskip]
      cases htree with
      | statements he hes =>
        refine .statements ?_ hes
        rwa [List.dropWhile_idempotent]
    have hpeek : c₁.peek ≠ .eof := by
      cases htree with
      | statements he hes =>
        have hopens : (next c₁.rest).opensExpression := by
          rw [hskip]
          exact he.opens
        rw [hc₁.next_rest] at hopens
        exact Token.ne_eof_of_opensExpression hopens
    rw [if_neg hpeek] at hruns ⊢
    -- the statements are read up to the end of input, or the rule is at its bound
    obtain ⟨d, hrun, hd, hrest⟩ | hbound :=
      hstatements.parsed (bound tokens.length) (bound tokens.length) c₁ hc₁ rfl
    · have hlast : d.peek = .eof := by rw [← hd.next_rest, hrest]; rfl
      rw [show (nested (bound tokens.length)).statements c₁ = (.value tree, d) from hrun]
      simp only [hlast, if_true]
    · refine absurd ?_ hruns
      -- a rule at its bound would bring the whole parser to its bound
      rcases hr : (nested (bound tokens.length)).statements c₁ with ⟨found | e | _, d⟩
      · rw [show statementsOver _ _ c₁ = _ from hr] at hbound
        cases hbound
      · rw [show statementsOver _ _ c₁ = _ from hr] at hbound
        cases hbound
      · rfl

/-- The parser gives exactly the trees of which the tokens are a text. -/
theorem parse_eq_value_iff {tokens : List Located} {tree : Expr} (hend : EndsInput tokens) :
    (parse tokens).1 = .value tree ↔ ∃ rest, ReadsProgram tree tokens rest := by
  constructor
  · intro h
    obtain ⟨rest, hread, -⟩ := readsProgram_of_parse hend h
    exact ⟨rest, hread⟩
  · rintro ⟨rest, hread⟩
    exact parse_of_readsProgram hend hread

end LineScript
