import Mathlib.Data.List.DropRight
import LineScript.Proofs.Grammar.FirstToken

/-!
# The grammar as a relation

What the rules read, said without cursors, bounds and attempts: `Reads phrase ts rest` holds if the
tokens `ts` begin with a text of the phrase and go on with `rest`.

  * `Tier` is a level of precedence. A text of a tier is a text of the tier below it and any number
    of operators of the tier, each with an operand of the tier `Tier.operand`.
  * `Phrase` is what a text can be a text of, with the tree that it stands for.
  * `Reads` has one constructor for each way to write a phrase. Where a text may go on or stop, the
    constructor that stops says which token may not follow.
  * `Rule.Yields` connects the two: where the rule gives a value, it has read a text of it.

**Statements.** A list of statements ends where no expression can start. The rules may also end it
after a statement that was given up, but then nobody can read on from there: what follows a list of
statements is `END`, `ELIF`, `ELSE` or the end of input.
-/

namespace LineScript

open Grammar

/-! ### Tiers -/

/-- The levels of precedence, from the loosest to the tightest. -/
inductive Tier
  | logical | comparison | sum | product | factor | power | call | atom
  deriving DecidableEq

namespace Tier

/-- The next tighter tier, that of the first operand. -/
def below : Tier → Tier
  | logical => comparison
  | comparison => sum
  | sum => product
  | product => factor
  | factor => power
  | power => call
  | call | atom => atom

/-- The tier of the operands after the first. An exponent is a factor again, so powers group to the
right. -/
def operand : Tier → Tier
  | power => factor
  | t => t.below

/-- The operators between the operands of a tier. -/
def accepts : Tier → BinaryOperator → Bool
  | logical => BinaryOperator.isLogical
  | comparison => BinaryOperator.isComparison
  | sum => BinaryOperator.isAdditive
  | product => BinaryOperator.isMultiplicative
  | power => BinaryOperator.isPower
  | factor | call | atom => fun _ => false

/-- Whether a text of the tier goes on if the token follows what has been read of it. -/
def continues : Tier → Token → Bool
  | call, token => decide (token = .symbol .lparen)
  | t, token => ((BinaryOperator.ofToken? token).filter t.accepts).isSome

end Tier

/-- The tier of an operator and its operand. -/
def UnaryOperator.tier : UnaryOperator → Tier
  | not => .comparison
  | plus | negate => .factor

/-- The value of a number token. -/
def Token.number? : Token → Option Float
  | int text | float text => Number.read? text
  | _ => none

/-! ### Phrases -/

/-- What a text can be a text of. -/
inductive Phrase
  /-- An expression. -/
  | expression (e : Expr)
  /-- An expression of the given tier. -/
  | tier (t : Tier) (e : Expr)
  /-- The operators and operands of the given tier that make `e` out of `left`. -/
  | chain (t : Tier) (left e : Expr)
  /-- The statements of a block or a program. -/
  | statements (e : Expr)
  /-- The statements after the first. -/
  | further (es : List Expr)
  /-- Expressions and the closing symbol; there is at least one. -/
  | items (closing : Symbol) (es : List Expr)
  /-- Expressions and the closing symbol. -/
  | separated (closing : Symbol) (es : List Expr)
  /-- The name of a function, which may be missing, and its parameters. -/
  | signature (name : Option String) (params : List String)
  /-- A body. -/
  | body (b : Body)
  /-- The body of a function. -/
  | functionBody (b : Body)
  /-- A case of a conditional after its `IF` or `ELIF`, and all that follows it. -/
  | case (condition : Expr) (b : Body) (rest : Chain)
  /-- What follows a case. -/
  | after (rest : Chain)
  /-- The step of a counted loop. -/
  | step (by_ : Option Expr)

/-- Items with commas between them and the closing symbol after the last; there is at least one. -/
inductive Listed {α : Type} (Item : α → List Located → List Located → Prop) (closing : Symbol) :
    List α → List Located → List Located → Prop
  /-- The last item. -/
  | last {a : α} {p : Position} {ts rest : List Located}
    (hitem : Item a ts (⟨.symbol closing, p⟩ :: rest)) : Listed Item closing [a] ts rest
  /-- An item before others. -/
  | more {a : α} {as : List α} {p : Position} {ts mid rest : List Located}
    (hitem : Item a ts (⟨.symbol .comma, p⟩ :: mid)) (hrest : Listed Item closing as mid rest) :
    Listed Item closing (a :: as) ts rest

/-- The first token is the given name. -/
def IsName (name : String) (ts rest : List Located) : Prop :=
  ∃ p, ts = ⟨.identifier name, p⟩ :: rest

/-- The tokens `ts` are a text of the phrase, and after it the tokens `rest`. -/
inductive Reads : Phrase → List Located → List Located → Prop
  /-- `VAR name = value`. -/
  | assign {name : String} {value : Expr} {p q r : Position} {ts rest : List Located}
    (hvalue : Reads (.expression value) ts rest) :
    Reads (.expression (.assign name value p))
      (⟨.keyword .var, p⟩ :: ⟨.identifier name, q⟩ :: ⟨.symbol .equals, r⟩ :: ts) rest
  /-- Any other expression. -/
  | logical {e : Expr} {ts rest : List Located} (he : Reads (.tier .logical e) ts rest) :
    Reads (.expression e) ts rest
  /-- A sign or `!` and an operand. -/
  | unary {op : UnaryOperator} {e : Expr} {p : Position} {ts rest : List Located}
    (he : Reads (.tier op.tier e) ts rest) :
    Reads (.tier op.tier (.unary op e p)) (⟨.symbol op.symbol, p⟩ :: ts) rest
  /-- A text of the tier below, and the operators after it. -/
  | operators {t : Tier} {first e : Expr} {ts mid rest : List Located} (hloose : t ≠ .atom)
    (hfirst : Reads (.tier t.below first) ts mid) (hchain : Reads (.chain t first e) mid rest) :
    Reads (.tier t e) ts rest
  /-- One operator with its operand, and the operators after it. -/
  | link {t : Tier} {op : BinaryOperator} {left right e : Expr} {p : Position}
    {ts mid rest : List Located} (haccepts : t.accepts op)
    (hright : Reads (.tier t.operand right) ts mid)
    (hchain : Reads (.chain t (.binary op left right left.position) e) mid rest) :
    Reads (.chain t left e) (⟨.symbol op.symbol, p⟩ :: ts) rest
  /-- No further operator. -/
  | stop {t : Tier} {e : Expr} {rest : List Located} (hends : t.continues (next rest) = false) :
    Reads (.chain t e e) rest rest
  /-- `callee(arguments)`. -/
  | call {callee : Expr} {arguments : List Expr} {p : Position} {ts mid rest : List Located}
    (hcallee : Reads (.tier .atom callee) ts (⟨.symbol .lparen, p⟩ :: mid))
    (harguments : Reads (.separated .rparen arguments) mid rest) :
    Reads (.tier .call (.call callee arguments callee.position)) ts rest
  /-- A number. -/
  | number {token : Token} {value : Float} {p : Position} {rest : List Located}
    (hvalue : token.number? = some value) :
    Reads (.tier .atom (.number value p)) (⟨token, p⟩ :: rest) rest
  /-- A string. -/
  | text {value : String} {p : Position} {rest : List Located} :
    Reads (.tier .atom (.text value p)) (⟨.str value, p⟩ :: rest) rest
  /-- A name. -/
  | name {name : String} {p : Position} {rest : List Located} :
    Reads (.tier .atom (.name name p)) (⟨.identifier name, p⟩ :: rest) rest
  /-- `(e)`. -/
  | grouping {e : Expr} {p q : Position} {ts rest : List Located}
    (he : Reads (.expression e) ts (⟨.symbol .rparen, q⟩ :: rest)) :
    Reads (.tier .atom e) (⟨.symbol .lparen, p⟩ :: ts) rest
  /-- `[a, b, …]`. -/
  | list {es : List Expr} {p : Position} {ts rest : List Located}
    (hes : Reads (.separated .rbracket es) ts rest) :
    Reads (.tier .atom (.list es p)) (⟨.symbol .lbracket, p⟩ :: ts) rest
  /-- `IF …`. -/
  | conditional {condition : Expr} {b : Body} {chain : Chain} {p : Position}
    {ts rest : List Located} (hcase : Reads (.case condition b chain) ts rest) :
    Reads (.tier .atom (.ifThen condition b chain p)) (⟨.keyword .if_, p⟩ :: ts) rest
  /-- `FOR var = start TO stop STEP step THEN body`. -/
  | forTo {var : String} {start stop : Expr} {by_ : Option Expr} {b : Body} {p q r u v : Position}
    {ts ts₁ ts₂ ts₃ rest : List Located}
    (hstart : Reads (.expression start) ts (⟨.keyword .to_, u⟩ :: ts₁))
    (hstop : Reads (.expression stop) ts₁ ts₂)
    (hstep : Reads (.step by_) ts₂ (⟨.keyword .then_, v⟩ :: ts₃))
    (hbody : Reads (.body b) ts₃ rest) :
    Reads (.tier .atom (.forTo var start stop by_ b p))
      (⟨.keyword .for_, p⟩ :: ⟨.identifier var, q⟩ :: ⟨.symbol .equals, r⟩ :: ts) rest
  /-- `WHILE condition THEN body`. -/
  | whileDo {condition : Expr} {b : Body} {p q : Position} {ts mid rest : List Located}
    (hcondition : Reads (.expression condition) ts (⟨.keyword .then_, q⟩ :: mid))
    (hbody : Reads (.body b) mid rest) :
    Reads (.tier .atom (.whileDo condition b p)) (⟨.keyword .while_, p⟩ :: ts) rest
  /-- `FUNCTION name(params) body`. -/
  | function {name : Option String} {params : List String} {b : Body} {p : Position}
    {ts mid rest : List Located} (hsignature : Reads (.signature name params) ts mid)
    (hbody : Reads (.functionBody b) mid rest) :
    Reads (.tier .atom (.function name params b p)) (⟨.keyword .function, p⟩ :: ts) rest
  /-- `name(params)`. -/
  | named {name : String} {params : List String} {p : Position} {ts rest : List Located}
    (hparams : Reads (.signature none params) ts rest) :
    Reads (.signature (some name) params) (⟨.identifier name, p⟩ :: ts) rest
  /-- `()`. -/
  | noParams {p q : Position} {rest : List Located} :
    Reads (.signature none []) (⟨.symbol .lparen, p⟩ :: ⟨.symbol .rparen, q⟩ :: rest) rest
  /-- `(params)`. -/
  | params {params : List String} {p : Position} {ts rest : List Located}
    (hparams : Listed IsName .rparen params ts rest) :
    Reads (.signature none params) (⟨.symbol .lparen, p⟩ :: ts) rest
  /-- `=> e`. -/
  | arrow {e : Expr} {p : Position} {ts rest : List Located} (he : Reads (.expression e) ts rest) :
    Reads (.functionBody (.inline e)) (⟨.symbol .arrow, p⟩ :: ts) rest
  /-- The statements of a function and `END`. -/
  | functionBlock {e : Expr} {p q : Position} {ts rest : List Located}
    (he : Reads (.statements e) ts (⟨.keyword .end_, q⟩ :: rest)) :
    Reads (.functionBody (.block e)) (⟨.newline, p⟩ :: ts) rest
  /-- An expression on the same line. -/
  | inline {e : Expr} {ts rest : List Located} (he : Reads (.expression e) ts rest) :
    Reads (.body (.inline e)) ts rest
  /-- Statements and `END`. -/
  | block {e : Expr} {p q : Position} {ts rest : List Located}
    (he : Reads (.statements e) ts (⟨.keyword .end_, q⟩ :: rest)) :
    Reads (.body (.block e)) (⟨.newline, p⟩ :: ts) rest
  /-- `condition THEN e`, and what follows. -/
  | inlineCase {condition e : Expr} {chain : Chain} {p : Position} {ts ts₁ ts₂ rest : List Located}
    (hcondition : Reads (.expression condition) ts (⟨.keyword .then_, p⟩ :: ts₁))
    (he : Reads (.expression e) ts₁ ts₂) (hchain : Reads (.after chain) ts₂ rest) :
    Reads (.case condition (.inline e) chain) ts rest
  /-- `condition THEN`, statements, and the `END` of the conditional. -/
  | lastBlock {condition e : Expr} {p q r : Position} {ts ts₁ rest : List Located}
    (hcondition : Reads (.expression condition) ts (⟨.keyword .then_, p⟩ :: ⟨.newline, q⟩ :: ts₁))
    (he : Reads (.statements e) ts₁ (⟨.keyword .end_, r⟩ :: rest)) :
    Reads (.case condition (.block e) .done) ts rest
  /-- `condition THEN`, statements, and a further branch. -/
  | blockCase {condition e : Expr} {chain : Chain} {p q : Position} {ts ts₁ ts₂ rest : List Located}
    (hcondition : Reads (.expression condition) ts (⟨.keyword .then_, p⟩ :: ⟨.newline, q⟩ :: ts₁))
    (he : Reads (.statements e) ts₁ ts₂) (hmore : chain ≠ .done)
    (hchain : Reads (.after chain) ts₂ rest) : Reads (.case condition (.block e) chain) ts rest
  /-- `ELIF` and a case. -/
  | elif {condition : Expr} {b : Body} {chain : Chain} {p : Position} {ts rest : List Located}
    (hcase : Reads (.case condition b chain) ts rest) :
    Reads (.after (.elif condition b chain)) (⟨.keyword .elif, p⟩ :: ts) rest
  /-- `ELSE` and a body. -/
  | otherwise {b : Body} {p : Position} {ts rest : List Located}
    (hbody : Reads (.body b) ts rest) :
    Reads (.after (.otherwise b)) (⟨.keyword .else_, p⟩ :: ts) rest
  /-- No further branch. -/
  | done {rest : List Located} (hnoElif : next rest ≠ .keyword .elif)
    (hnoElse : next rest ≠ .keyword .else_) : Reads (.after .done) rest rest
  /-- `STEP e`. -/
  | step {e : Expr} {p : Position} {ts rest : List Located} (he : Reads (.expression e) ts rest) :
    Reads (.step (some e)) (⟨.keyword .step, p⟩ :: ts) rest
  /-- No step. -/
  | noStep {rest : List Located} (hends : next rest ≠ .keyword .step) :
    Reads (.step none) rest rest
  /-- Separators, a statement, and the statements after it. -/
  | statements {e : Expr} {es : List Expr} {ts mid rest : List Located}
    (he : Reads (.expression e) (ts.dropWhile Located.isNewline) mid)
    (hes : Reads (.further es) mid rest) :
    Reads (.statements (.list (e :: es) e.position)) ts rest
  /-- At least one separator, a statement, and the statements after it. -/
  | further {e : Expr} {es : List Expr} {p : Position} {ts mid rest : List Located}
    (he : Reads (.expression e) (ts.dropWhile Located.isNewline) mid)
    (hes : Reads (.further es) mid rest) :
    Reads (.further (e :: es)) (⟨.newline, p⟩ :: ts) rest
  /-- No further statement. -/
  | noFurther {ts : List Located}
    (hends : (next (ts.dropWhile Located.isNewline)).opensExpression = false) :
    Reads (.further []) ts (ts.dropWhile Located.isNewline)
  /-- Nothing before the closing symbol. -/
  | noItems {closing : Symbol} {p : Position} {rest : List Located} :
    Reads (.separated closing []) (⟨.symbol closing, p⟩ :: rest) rest
  /-- Something before the closing symbol. -/
  | items {closing : Symbol} {es : List Expr} {ts rest : List Located}
    (hes : Reads (.items closing es) ts rest) : Reads (.separated closing es) ts rest
  /-- The last expression. -/
  | last {closing : Symbol} {e : Expr} {p : Position} {ts rest : List Located}
    (he : Reads (.expression e) ts (⟨.symbol closing, p⟩ :: rest)) :
    Reads (.items closing [e]) ts rest
  /-- An expression before others. -/
  | more {closing : Symbol} {e : Expr} {es : List Expr} {p : Position} {ts mid rest : List Located}
    (he : Reads (.expression e) ts (⟨.symbol .comma, p⟩ :: mid))
    (hes : Reads (.items closing es) mid rest) : Reads (.items closing (e :: es)) ts rest

/-- A text of the tier below, if nothing follows that goes on. -/
theorem Reads.loosen {t : Tier} {e : Expr} {ts rest : List Located} (hloose : t ≠ .atom)
    (h : Reads (.tier t.below e) ts rest) (hends : t.continues (next rest) = false) :
    Reads (.tier t e) ts rest :=
  .operators hloose h (.stop hends)

theorem BinaryOperator.ofToken?_eq_some_iff {token : Token} {op : BinaryOperator} :
    ofToken? token = some op ↔ token = .symbol op.symbol := by
  cases token with
  | symbol mark => simp only [ofToken?, ofSymbol?_eq_some_iff, Token.symbol.injEq]
  | _ => simp [ofToken?]

/-! ### What rules read -/

namespace Rule

open Run

variable {α β : Type} {R : α → List Located → List Located → Prop} {c d : Cursor}

/-- Where the rule gives a value, the tokens it has read are described by `R`. -/
def Yields (R : α → List Located → List Located → Prop) (rule : Rule α) : Prop :=
  ∀ c d a, c.Ended → rule c = (.value a, d) → d.Ended ∧ R a c.rest d.rest

/-- The first of two rules that give a value together. -/
theorem Yields.bind_value {rule : Rule α} {next : α → Rule β} {b : β} (h : Yields R rule)
    (hc : c.Ended) (hrun : (rule >>= next) c = (.value b, d)) :
    ∃ a c', c'.Ended ∧ R a c.rest c'.rest ∧ next a c' = (.value b, d) := by
  obtain ⟨a, c', hfirst, hnext⟩ := Run.bind_eq_value_iff.mp hrun
  obtain ⟨hc', hR⟩ := h c c' a hc hfirst
  exact ⟨a, c', hc', hR, hnext⟩

/-- A rule that looks for a token takes one of two ways. -/
theorem sees_cases {token : Token} {yes no : Rule α} {a : α}
    (hrun : (sees token >>= fun seen => if seen = true then yes else no) c = (.value a, d)) :
    (c.peek = token ∧ yes c = (.value a, d)) ∨ (c.peek ≠ token ∧ no c = (.value a, d)) := by
  by_cases hpeek : c.peek = token
  · left
    have hseen : (decide (c.peek = token)) = true := decide_eq_true hpeek
    refine ⟨hpeek, ?_⟩
    rw [← hrun, Run.bind_apply]
    simp only [sees, look, hseen, if_true]
  · right
    have hseen : (decide (c.peek = token)) = false := decide_eq_false hpeek
    refine ⟨hpeek, ?_⟩
    rw [← hrun, Run.bind_apply]
    simp only [sees, look, hseen, Bool.false_eq_true, if_false]

/-- A rule that looks at the current token goes on with it. -/
theorem peek_value {next : Token → Rule α} {a : α}
    (hrun : (look Cursor.peek >>= next) c = (.value a, d)) :
    ∃ token, c.peek = token ∧ next token c = (.value a, d) :=
  ⟨_, rfl, hrun⟩

/-- Past the current token, if it is not the end of input. -/
theorem advance_of_peek {token : Token} (hc : c.Ended) (hpeek : c.peek = token)
    (hne : token ≠ .eof) :
    c.advance.Ended ∧ c.rest = ⟨token, c.position⟩ :: c.advance.rest := by
  refine ⟨hc.reaches_advance.ended hc, ?_⟩
  rw [hc.rest_eq_cons_advance (hpeek ▸ hne), ← hpeek]
  rfl

theorem yields_expect (token : Token) (expected : String) (hne : token ≠ .eof) :
    Yields (fun p ts rest => ts = ⟨token, p⟩ :: rest) (expect token expected) := by
  intro c d p hc hrun
  by_cases hpeek : c.peek = token
  · rw [expect_of_peek hpeek] at hrun
    cases hrun
    exact advance_of_peek hc hpeek hne
  · rw [expect_of_peek_ne hpeek] at hrun
    cases hrun

theorem yields_keyword (word : Keyword) :
    Yields (fun p ts rest => ts = ⟨.keyword word, p⟩ :: rest) (expectKeyword word) :=
  yields_expect _ _ nofun

theorem yields_symbol (mark : Symbol) :
    Yields (fun p ts rest => ts = ⟨.symbol mark, p⟩ :: rest) (expectSymbol mark) :=
  yields_expect _ _ nofun

theorem yields_newline : Yields (fun p ts rest => ts = ⟨.newline, p⟩ :: rest)
    (expect .newline Token.newline.describe) :=
  yields_expect _ _ nofun

theorem yields_expectIdentifier :
    Yields IsName expectIdentifier := by
  intro c d name hc hrun
  obtain ⟨token, hpeek, hrun⟩ := peek_value hrun
  cases token with
  | identifier found =>
    cases hrun
    obtain ⟨hc', hrest⟩ := advance_of_peek hc hpeek nofun
    exact ⟨hc', c.position, hrest⟩
  | _ => cases hrun

/-- Separators are skipped all at once. -/
theorem yields_skipNewlines : Yields (fun count ts rest =>
    rest = ts.dropWhile Located.isNewline ∧ (count = 0 ↔ LineScript.next ts ≠ .newline))
    skipNewlines := by
  intro c d count hc hrun
  cases hrun
  refine ⟨hc.reaches_skipNewlines.ended hc, hc.rest_skipNewlines, ?_⟩
  rw [hc.next_rest]
  exact hc.skipNewlines_eq_zero

theorem Yields.expecting {rule : Rule α} (h : Yields R rule) (expected : String) :
    Yields R (expecting expected rule) := by
  intro c d a hc hrun
  unfold Rule.expecting at hrun
  rcases hr : rule c with ⟨b | e | _, d'⟩ <;> rw [hr] at hrun <;> cases hrun
  exact h c _ _ hc hr

theorem yields_items {item : Rule α} (closing : Symbol) (hitem : Yields R item) (n : Nat) :
    Yields (Listed R closing) (items item closing n) := by
  induction n with
  | zero => exact fun _ _ _ _ => nofun
  | succ n ih =>
    intro c d as hc hrun
    obtain ⟨first, c₁, hc₁, hfirst, hrun⟩ := hitem.bind_value hc hrun
    obtain ⟨token, hpeek, hrun⟩ := peek_value hrun
    split at hrun
    · next hcomma =>
      obtain ⟨hc₂, hrest⟩ := advance_of_peek hc₁ (hpeek.trans hcomma) nofun
      obtain ⟨others, c₃, hc₃, hothers, hrun⟩ := ih.bind_value hc₂ hrun
      cases hrun
      rw [hrest] at hfirst
      exact ⟨hc₃, .more hfirst hothers⟩
    · split at hrun
      · next hclosing =>
        obtain ⟨hc₂, hrest⟩ := advance_of_peek hc₁ (hpeek.trans hclosing) nofun
        cases hrun
        rw [hrest] at hfirst
        exact ⟨hc₂, .last hfirst⟩
      · cases hrun

/-- Nothing before the closing symbol, or items. -/
theorem yields_separated {item : Rule α} (closing : Symbol) (hitem : Yields R item) (n : Nat) :
    Yields (fun as ts rest => (as = [] ∧ ∃ p, ts = ⟨.symbol closing, p⟩ :: rest) ∨
      Listed R closing as ts rest) (separated item closing n) := by
  intro c d as hc hrun
  obtain ⟨hpeek, hrun⟩ | ⟨hpeek, hrun⟩ := sees_cases hrun
  · obtain ⟨hc₁, hrest⟩ := advance_of_peek hc hpeek nofun
    cases hrun
    exact ⟨hc₁, .inl ⟨rfl, c.position, hrest⟩⟩
  · obtain ⟨hd, hitems⟩ := yields_items closing hitem n c d as hc hrun
    exact ⟨hd, .inr hitems⟩

end Rule

theorem Reads.of_listed {closing : Symbol} {es : List Expr} {ts rest : List Located}
    (h : Listed (fun e => Reads (.expression e)) closing es ts rest) :
    Reads (.items closing es) ts rest := by
  induction h with
  | last hitem => exact .last hitem
  | more hitem _ ih => exact .more hitem ih

/-- At `ELIF` or `ELSE` there is a further branch. -/
theorem Reads.chain_ne_done {chain : Chain} {ts rest : List Located}
    (h : Reads (.after chain) ts rest)
    (hnext : next ts = .keyword .elif ∨ next ts = .keyword .else_) : chain ≠ .done := by
  rintro rfl
  cases h with
  | done hnoElif hnoElse => exact hnext.elim hnoElif hnoElse

/-! ### The rules of the grammar -/

/-- The nested rules read expressions, and statements if no expression follows them. -/
structure Nested.Yields (sub : Nested) : Prop where
  /-- One expression. -/
  expression : sub.expression.Yields fun e => Reads (.expression e)
  /-- The statements of a block. -/
  statements : sub.statements.Yields fun e ts rest =>
    (next rest).opensExpression = false → Reads (.statements e) ts rest

namespace Grammar

open Run Rule

variable {sub : Nested}

theorem yields_separatedExpressions (closing : Symbol) (hsub : sub.Yields) (n : Nat) :
    (separated sub.expression closing n).Yields fun es => Reads (.separated closing es) := by
  intro c d es hc hrun
  obtain ⟨hd, ⟨rfl, p, hrest⟩ | hlisted⟩ :=
    yields_separated closing hsub.expression n c d es hc hrun
  · rw [hrest]
    exact ⟨hd, .noItems⟩
  · exact ⟨hd, .items (.of_listed hlisted)⟩

theorem yields_chain {t : Tier} (hcall : t ≠ .call) {operand : Rule Expr}
    (hoperand : operand.Yields fun e => Reads (.tier t.operand e)) (n : Nat) (left : Expr) :
    (chain t.accepts operand n left).Yields fun e => Reads (.chain t left e) := by
  induction n generalizing left with
  | zero => exact fun _ _ _ _ => nofun
  | succ n ih =>
    intro c d e hc hrun
    obtain ⟨token, hpeek, hrun⟩ := peek_value hrun
    -- the next token is an operator of the tier, or the chain stops before it
    cases hop : (BinaryOperator.ofToken? token).filter t.accepts with
    | some op =>
      rw [hop] at hrun
      obtain ⟨htoken, haccepts⟩ := Option.filter_eq_some_iff.mp hop
      rw [BinaryOperator.ofToken?_eq_some_iff] at htoken
      obtain ⟨hc₁, hrest⟩ := advance_of_peek hc (hpeek.trans htoken) nofun
      obtain ⟨right, c₂, hc₂, hright, hrun⟩ := hoperand.bind_value hc₁ hrun
      obtain ⟨hd, hchain⟩ := ih _ c₂ d e hc₂ hrun
      rw [hrest]
      exact ⟨hd, .link haccepts hright hchain⟩
    | none =>
      rw [hop] at hrun
      cases hrun
      refine ⟨hc, .stop ?_⟩
      -- only at the tier of calls does `continues` say something else
      have hends : ((BinaryOperator.ofToken? token).filter t.accepts).isSome = false := by
        rw [hop]; rfl
      rw [hc.next_rest, hpeek]
      cases t <;> first | exact hends | exact absurd rfl hcall

theorem yields_leftAssociative {t : Tier} (hcall : t ≠ .call) (hatom : t ≠ .atom)
    (hsame : t.operand = t.below) {operand : Rule Expr}
    (hoperand : operand.Yields fun e => Reads (.tier t.below e)) (n : Nat) :
    (leftAssociative t.accepts operand n).Yields fun e => Reads (.tier t e) := by
  intro c d e hc hrun
  obtain ⟨first, c₁, hc₁, hfirst, hrun⟩ := hoperand.bind_value hc hrun
  obtain ⟨hd, hchain⟩ := yields_chain hcall (hsame ▸ hoperand) n first c₁ d e hc₁ hrun
  exact ⟨hd, .operators hatom hfirst hchain⟩

/-! #### Bodies -/

/-- The place of a block before what closes it. -/
theorem yields_block (hsub : sub.Yields) : (block sub).Yields fun b ts rest =>
    ∃ e p ts', b = .block e ∧ ts = ⟨.newline, p⟩ :: ts' ∧
      ((next rest).opensExpression = false → Reads (.statements e) ts' rest) := by
  intro c d b hc hrun
  obtain ⟨p, c₁, hc₁, hnewline, hrun⟩ := yields_newline.bind_value hc hrun
  obtain ⟨e, c₂, hc₂, hstatements, hrun⟩ := hsub.statements.bind_value hc₁ hrun
  cases hrun
  exact ⟨hc₂, e, p, c₁.rest, rfl, hnewline, hstatements⟩

theorem yields_inlineBody (hsub : sub.Yields) : (inlineBody sub).Yields fun b ts rest =>
    ∃ e, b = .inline e ∧ Reads (.expression e) ts rest := by
  intro c d b hc hrun
  obtain ⟨e, c₁, hc₁, he, hrun⟩ := hsub.expression.bind_value hc hrun
  cases hrun
  exact ⟨hc₁, e, rfl, he⟩

theorem yields_blockEnd (construct : Keyword) : (blockEnd construct).Yields fun _ ts rest =>
    ∃ p, ts = ⟨.keyword .end_, p⟩ :: rest := by
  intro c d _ hc hrun
  obtain ⟨hpeek, hrun⟩ | ⟨-, hrun⟩ := sees_cases hrun
  · cases hrun
    obtain ⟨hc₁, hrest⟩ := advance_of_peek hc hpeek nofun
    exact ⟨hc₁, c.position, hrest⟩
  · cases hrun

/-- A block and its `END`. -/
theorem yields_closedBlock (hsub : sub.Yields) (construct : Keyword) :
    (do
      let b ← block sub
      blockEnd construct
      pure b : Rule Body).Yields fun b ts rest =>
        ∃ e p q ts', b = .block e ∧ ts = ⟨.newline, p⟩ :: ts' ∧
          Reads (.statements e) ts' (⟨.keyword .end_, q⟩ :: rest) := by
  intro c d b hc hrun
  obtain ⟨_, c₁, hc₁, ⟨e, p, ts, rfl, hnewline, hstatements⟩, hrun⟩ :=
    (yields_block hsub).bind_value hc hrun
  obtain ⟨_, c₂, hc₂, ⟨q, hend⟩, hrun⟩ := (yields_blockEnd construct).bind_value hc₁ hrun
  cases hrun
  rw [hend] at hstatements
  exact ⟨hc₂, e, p, q, ts, rfl, hnewline, hstatements rfl⟩

theorem yields_body (hsub : sub.Yields) (construct : Keyword) :
    (body sub construct).Yields fun b => Reads (.body b) := by
  intro c d b hc hrun
  obtain ⟨-, hrun⟩ | ⟨-, hrun⟩ := sees_cases hrun
  · obtain ⟨hd, e, p, q, ts, rfl, hnewline, he⟩ := yields_closedBlock hsub construct c d b hc hrun
    rw [hnewline]
    exact ⟨hd, .block he⟩
  · obtain ⟨hd, e, rfl, he⟩ := yields_inlineBody hsub c d b hc hrun
    exact ⟨hd, .inline he⟩

theorem yields_functionBody (hsub : sub.Yields) :
    (functionBody sub).Yields fun b => Reads (.functionBody b) := by
  intro c d b hc hrun
  obtain ⟨hpeek, hrun⟩ | ⟨-, hrun⟩ := sees_cases hrun
  · obtain ⟨hc₁, hrest⟩ := advance_of_peek hc hpeek nofun
    obtain ⟨hd, e, rfl, he⟩ := yields_inlineBody hsub c.advance d b hc₁ hrun
    rw [hrest]
    exact ⟨hd, .arrow he⟩
  · obtain ⟨-, hrun⟩ | ⟨-, hrun⟩ := sees_cases hrun
    · obtain ⟨hd, e, p, q, ts, rfl, hnewline, he⟩ :=
        yields_closedBlock hsub .function c d b hc hrun
      rw [hnewline]
      exact ⟨hd, .functionBlock he⟩
    · cases hrun

/-! #### Constructs -/

/-- What follows a case; the case after an `ELIF` still has its keyword. -/
theorem yields_afterCase (hsub : sub.Yields) {case : Rule (Expr × Body × Chain)}
    (hcase : case.Yields fun r ts rest => ∃ p ts', ts = ⟨.keyword .elif, p⟩ :: ts' ∧
      Reads (.case r.1 r.2.1 r.2.2) ts' rest) :
    (afterCase sub case).Yields fun chain => Reads (.after chain) := by
  intro c d chain hc hrun
  obtain ⟨-, hrun⟩ | ⟨hnoElif, hrun⟩ := sees_cases hrun
  · obtain ⟨⟨condition, b, rest⟩, c₁, hc₁, ⟨p, ts, helif, hrest⟩, hrun⟩ :=
      hcase.bind_value hc hrun
    cases hrun
    rw [helif]
    exact ⟨hc₁, .elif hrest⟩
  · obtain ⟨hpeek, hrun⟩ | ⟨hnoElse, hrun⟩ := sees_cases hrun
    · obtain ⟨hc₁, hrest⟩ := advance_of_peek hc hpeek nofun
      obtain ⟨b, c₂, hc₂, hb, hrun⟩ := (yields_body hsub .else_).bind_value hc₁ hrun
      cases hrun
      rw [hrest]
      exact ⟨hc₂, .otherwise hb⟩
    · cases hrun
      refine ⟨hc, .done ?_ ?_⟩
      · rwa [hc.next_rest]
      · rwa [hc.next_rest]

theorem yields_ifCase (hsub : sub.Yields) (n : Nat) (word : Keyword) :
    (ifCase sub n word).Yields fun r ts rest => ∃ p ts', ts = ⟨.keyword word, p⟩ :: ts' ∧
      Reads (.case r.1 r.2.1 r.2.2) ts' rest := by
  induction n generalizing word with
  | zero => exact fun _ _ _ _ => nofun
  | succ n ih =>
    intro c d r hc hrun
    obtain ⟨p, c₁, hc₁, hword, hrun⟩ := (yields_keyword word).bind_value hc hrun
    obtain ⟨condition, c₂, hc₂, hcondition, hrun⟩ := hsub.expression.bind_value hc₁ hrun
    obtain ⟨q, c₃, hc₃, hthen, hrun⟩ := (yields_keyword .then_).bind_value hc₂ hrun
    rw [hthen] at hcondition
    have hafter := yields_afterCase hsub (ih .elif)
    -- a block on lines of its own, or an expression on the same line
    obtain ⟨-, hrun⟩ | ⟨-, hrun⟩ := sees_cases hrun
    · obtain ⟨_, c₄, hc₄, ⟨e, u, ts, rfl, hnewline, hstatements⟩, hrun⟩ :=
        (yields_block hsub).bind_value hc₃ hrun
      rw [hnewline] at hcondition
      obtain ⟨hpeek, hrun⟩ | ⟨hnoEnd, hrun⟩ := sees_cases hrun
      · obtain ⟨hc₅, hrest⟩ := advance_of_peek hc₄ hpeek nofun
        cases hrun
        rw [hrest] at hstatements
        exact ⟨hc₅, p, _, hword, .lastBlock hcondition (hstatements rfl)⟩
      · -- which of the two keywords it is does not matter here
        obtain ⟨elif, _, ⟨⟩, hrun⟩ := Run.bind_eq_value_iff.mp hrun
        obtain ⟨else_, _, ⟨⟩, hrun⟩ := Run.bind_eq_value_iff.mp hrun
        split at hrun
        · next hmore =>
          have hnext : next c₄.rest = .keyword .elif ∨ next c₄.rest = .keyword .else_ := by
            rw [hc₄.next_rest]
            simpa using hmore
          -- a list of statements is read up to here only if no expression can start here
          have hends : (next c₄.rest).opensExpression = false := by
            obtain hnext | hnext := hnext <;> rw [hnext] <;> rfl
          obtain ⟨chain, c₅, hc₅, hchain, hrun⟩ := hafter.bind_value hc₄ hrun
          cases hrun
          exact ⟨hc₅, p, _, hword,
            .blockCase hcondition (hstatements hends) (hchain.chain_ne_done hnext) hchain⟩
        · obtain ⟨_, c₅, hc₅, ⟨u, hend⟩, hrun⟩ := (yields_blockEnd .if_).bind_value hc₄ hrun
          rw [hc₄.rest_eq] at hend
          exact absurd (congrArg Located.token (List.cons.inj hend).1) hnoEnd
    · obtain ⟨_, c₄, hc₄, ⟨e, rfl, he⟩, hrun⟩ := (yields_inlineBody hsub).bind_value hc₃ hrun
      obtain ⟨chain, c₅, hc₅, hchain, hrun⟩ := hafter.bind_value hc₄ hrun
      cases hrun
      exact ⟨hc₅, p, _, hword, .inlineCase hcondition he hchain⟩

theorem yields_conditional (hsub : sub.Yields) (n : Nat) :
    (conditional sub n).Yields fun e => Reads (.tier .atom e) := by
  intro c d e hc hrun
  obtain ⟨p, _, ⟨⟩, hrun⟩ := Run.bind_eq_value_iff.mp hrun
  obtain ⟨⟨condition, b, chain⟩, c₁, hc₁, ⟨p, ts, hif, hcase⟩, hrun⟩ :=
    (yields_ifCase hsub n .if_).bind_value hc hrun
  cases hrun
  have hplace : c.position = p := by
    rw [hc.rest_eq] at hif
    exact congrArg Located.position (List.cons.inj hif).1
  rw [hif, hplace]
  exact ⟨hc₁, .conditional hcase⟩

theorem yields_step (hsub : sub.Yields) : (step sub).Yields fun by_ => Reads (.step by_) := by
  intro c d by_ hc hrun
  obtain ⟨hpeek, hrun⟩ | ⟨hnoStep, hrun⟩ := sees_cases hrun
  · obtain ⟨hc₁, hrest⟩ := advance_of_peek hc hpeek nofun
    obtain ⟨e, c₂, hc₂, he, hrun⟩ := hsub.expression.bind_value hc₁ hrun
    cases hrun
    rw [hrest]
    exact ⟨hc₂, .step he⟩
  · cases hrun
    refine ⟨hc, .noStep ?_⟩
    rwa [hc.next_rest]

theorem yields_countedLoop (hsub : sub.Yields) :
    (countedLoop sub).Yields fun e => Reads (.tier .atom e) := by
  intro c d e hc hrun
  obtain ⟨p, c₁, hc₁, hfor, hrun⟩ := (yields_keyword .for_).bind_value hc hrun
  obtain ⟨var, c₂, hc₂, ⟨q, hvar⟩, hrun⟩ := yields_expectIdentifier.bind_value hc₁ hrun
  obtain ⟨r, c₃, hc₃, hequals, hrun⟩ := (yields_symbol .equals).bind_value hc₂ hrun
  obtain ⟨start, c₄, hc₄, hstart, hrun⟩ := hsub.expression.bind_value hc₃ hrun
  obtain ⟨u, c₅, hc₅, hto, hrun⟩ := (yields_keyword .to_).bind_value hc₄ hrun
  obtain ⟨stop, c₆, hc₆, hstop, hrun⟩ := hsub.expression.bind_value hc₅ hrun
  obtain ⟨by_, c₇, hc₇, hstep, hrun⟩ := (yields_step hsub).bind_value hc₆ hrun
  obtain ⟨v, c₈, hc₈, hthen, hrun⟩ := (yields_keyword .then_).bind_value hc₇ hrun
  obtain ⟨b, c₉, hc₉, hbody, hrun⟩ := (yields_body hsub .for_).bind_value hc₈ hrun
  cases hrun
  rw [hto] at hstart
  rw [hthen] at hstep
  rw [hfor, hvar, hequals]
  exact ⟨hc₉, .forTo hstart hstop hstep hbody⟩

theorem yields_conditionalLoop (hsub : sub.Yields) :
    (conditionalLoop sub).Yields fun e => Reads (.tier .atom e) := by
  intro c d e hc hrun
  obtain ⟨p, c₁, hc₁, hwhile, hrun⟩ := (yields_keyword .while_).bind_value hc hrun
  obtain ⟨condition, c₂, hc₂, hcondition, hrun⟩ := hsub.expression.bind_value hc₁ hrun
  obtain ⟨q, c₃, hc₃, hthen, hrun⟩ := (yields_keyword .then_).bind_value hc₂ hrun
  obtain ⟨b, c₄, hc₄, hbody, hrun⟩ := (yields_body hsub .while_).bind_value hc₃ hrun
  cases hrun
  rw [hthen] at hcondition
  rw [hwhile]
  exact ⟨hc₄, .whileDo hcondition hbody⟩

theorem yields_optionalName : optionalName.Yields fun name ts rest =>
    (name = none ∧ ts = rest) ∨ ∃ text, name = some text ∧ IsName text ts rest := by
  intro c d name hc hrun
  obtain ⟨token, hpeek, hrun⟩ := peek_value hrun
  cases token with
  | identifier text =>
    cases hrun
    obtain ⟨hc₁, hrest⟩ := advance_of_peek hc hpeek nofun
    exact ⟨hc₁, .inr ⟨text, rfl, c.position, hrest⟩⟩
  | _ =>
    cases hrun
    exact ⟨hc, .inl ⟨rfl, rfl⟩⟩

theorem yields_functionDefinition (hsub : sub.Yields) (n : Nat) :
    (functionDefinition sub n).Yields fun e => Reads (.tier .atom e) := by
  intro c d e hc hrun
  obtain ⟨p, c₁, hc₁, hfunction, hrun⟩ := (yields_keyword .function).bind_value hc hrun
  obtain ⟨name, c₂, hc₂, hname, hrun⟩ := yields_optionalName.bind_value hc₁ hrun
  obtain ⟨q, c₃, hc₃, hparen, hrun⟩ := (yields_expect (.symbol .lparen) _ nofun).bind_value hc₂ hrun
  obtain ⟨params, c₄, hc₄, hparams, hrun⟩ :=
    (yields_separated .rparen yields_expectIdentifier n).bind_value hc₃ hrun
  obtain ⟨b, c₅, hc₅, hbody, hrun⟩ := (yields_functionBody hsub).bind_value hc₄ hrun
  cases hrun
  have hsignature : Reads (.signature none params) c₂.rest c₄.rest := by
    rw [hparen]
    obtain ⟨rfl, r, hclosing⟩ | hlisted := hparams
    · rw [hclosing]
      exact .noParams
    · exact .params hlisted
  rw [hfunction]
  obtain ⟨rfl, hsame⟩ | ⟨text, rfl, r, htext⟩ := hname
  · rw [hsame]
    exact ⟨hc₅, .function hsignature hbody⟩
  · rw [htext]
    exact ⟨hc₅, .function (.named hsignature) hbody⟩

/-! #### Atoms and tiers -/

theorem yields_grouping (hsub : sub.Yields) :
    (grouping sub).Yields fun e => Reads (.tier .atom e) := by
  intro c d e hc hrun
  obtain ⟨p, c₁, hc₁, hopening, hrun⟩ := (yields_symbol .lparen).bind_value hc hrun
  obtain ⟨inner, c₂, hc₂, he, hrun⟩ := hsub.expression.bind_value hc₁ hrun
  obtain ⟨q, c₃, hc₃, hclosing, hrun⟩ := (yields_symbol .rparen).bind_value hc₂ hrun
  cases hrun
  rw [hclosing] at he
  rw [hopening]
  exact ⟨hc₃, .grouping he⟩

theorem yields_listLiteral (hsub : sub.Yields) (n : Nat) :
    (listLiteral sub n).Yields fun e => Reads (.tier .atom e) := by
  intro c d e hc hrun
  obtain ⟨p, c₁, hc₁, hopening, hrun⟩ := (yields_symbol .lbracket).bind_value hc hrun
  obtain ⟨es, c₂, hc₂, hes, hrun⟩ :=
    (yields_separatedExpressions .rbracket hsub n).bind_value hc₁ hrun
  cases hrun
  rw [hopening]
  exact ⟨hc₂, .list hes⟩

/-- A number token whose text is a number. -/
theorem reads_numberLiteral {text : String} {token : Token} {c d : Cursor} {e : Expr}
    (hc : c.Ended) (hpeek : c.peek = token) (htoken : token.number? = Number.read? text)
    (hrun : numberLiteral text c = (.value e, d)) :
    d.Ended ∧ Reads (.tier .atom e) c.rest d.rest := by
  unfold numberLiteral at hrun
  cases hvalue : Number.read? text with
  | some value =>
    rw [hvalue] at hrun
    cases hrun
    have hne : token ≠ .eof := by
      rintro rfl
      rw [hvalue] at htoken
      cases htoken
    obtain ⟨hc₁, hrest⟩ := advance_of_peek hc hpeek hne
    rw [hrest]
    exact ⟨hc₁, .number (htoken.trans hvalue)⟩
  | none =>
    rw [hvalue] at hrun
    cases hrun

theorem yields_atom (hsub : sub.Yields) (n : Nat) :
    (atom sub n).Yields fun e => Reads (.tier .atom e) := by
  intro c d e hc hrun
  obtain ⟨token, hpeek, hrun⟩ := peek_value hrun
  split at hrun
  · exact reads_numberLiteral hc hpeek rfl hrun
  · exact reads_numberLiteral hc hpeek rfl hrun
  · obtain ⟨hc₁, hrest⟩ := advance_of_peek hc hpeek nofun
    cases hrun
    rw [hrest]
    exact ⟨hc₁, .text⟩
  · obtain ⟨hc₁, hrest⟩ := advance_of_peek hc hpeek nofun
    cases hrun
    rw [hrest]
    exact ⟨hc₁, .name⟩
  · exact yields_grouping hsub c d e hc hrun
  · exact yields_listLiteral hsub n c d e hc hrun
  · exact yields_conditional hsub n c d e hc hrun
  · exact yields_countedLoop hsub c d e hc hrun
  · exact yields_conditionalLoop hsub c d e hc hrun
  · exact yields_functionDefinition hsub n c d e hc hrun
  · cases hrun

theorem yields_call (hsub : sub.Yields) (n : Nat) :
    (call sub n).Yields fun e => Reads (.tier .call e) := by
  intro c d e hc hrun
  obtain ⟨callee, c₁, hc₁, hcallee, hrun⟩ := (yields_atom hsub n).bind_value hc hrun
  obtain ⟨hpeek, hrun⟩ | ⟨hpeek, hrun⟩ := sees_cases hrun
  · obtain ⟨hc₂, hrest⟩ := advance_of_peek hc₁ hpeek nofun
    obtain ⟨arguments, c₃, hc₃, harguments, hrun⟩ :=
      (yields_separatedExpressions .rparen hsub n).bind_value hc₂ hrun
    cases hrun
    rw [hrest] at hcallee
    exact ⟨hc₃, .call hcallee harguments⟩
  · cases hrun
    refine ⟨hc₁, .loosen nofun hcallee (decide_eq_false ?_)⟩
    rwa [hc₁.next_rest]

/-- No operator belongs to factors as such: they are signs before a power. -/
theorem continues_factor (token : Token) : Tier.factor.continues token = false := by
  simp only [Tier.continues, Tier.accepts]
  cases BinaryOperator.ofToken? token <;> rfl

theorem yields_factor (hsub : sub.Yields) (n : Nat) :
    (factor sub n).Yields fun e => Reads (.tier .factor e) := by
  induction n with
  | zero => exact fun _ _ _ _ => nofun
  | succ n ih =>
    intro c d e hc hrun
    obtain ⟨token, hpeek, hrun⟩ := peek_value hrun
    cases hsign : sign? token with
    | some op =>
      rw [hsign] at hrun
      -- a sign is the symbol of its operator, and its operand is a factor
      obtain ⟨htoken, htier⟩ : token = .symbol op.symbol ∧ op.tier = .factor := by
        unfold sign? at hsign
        split at hsign <;> cases hsign <;> exact ⟨rfl, rfl⟩
      obtain ⟨hc₁, hrest⟩ := advance_of_peek hc (hpeek.trans htoken) nofun
      obtain ⟨operand, c₂, hc₂, hoperand, hrun⟩ := ih.bind_value hc₁ hrun
      cases hrun
      rw [hrest]
      rw [← htier] at hoperand ⊢
      exact ⟨hc₂, .unary hoperand⟩
    | none =>
      rw [hsign] at hrun
      obtain ⟨base, c₁, hc₁, hbase, hrun⟩ := (yields_call hsub (n + 1)).bind_value hc hrun
      obtain ⟨hd, hchain⟩ := yields_chain (t := .power) nofun ih (n + 1) base c₁ d e hc₁ hrun
      have hpower : Reads (.tier .power e) c.rest d.rest := .operators nofun hbase hchain
      exact ⟨hd, .loosen nofun hpower (continues_factor _)⟩

theorem yields_sum (hsub : sub.Yields) (n : Nat) :
    (sum sub n).Yields fun e => Reads (.tier .sum e) := by
  have hproduct : (product sub n).Yields fun e => Reads (.tier .product e) :=
    yields_leftAssociative (t := .product) nofun nofun rfl (yields_factor hsub n) n
  exact yields_leftAssociative (t := .sum) nofun nofun rfl hproduct n

theorem yields_comparison (hsub : sub.Yields) (n : Nat) :
    (comparison sub n).Yields fun e => Reads (.tier .comparison e) := by
  induction n with
  | zero => exact fun _ _ _ _ => nofun
  | succ n ih =>
    intro c d e hc hrun
    obtain ⟨hpeek, hrun⟩ | ⟨-, hrun⟩ := sees_cases hrun
    · obtain ⟨hc₁, hrest⟩ := advance_of_peek hc hpeek nofun
      obtain ⟨operand, c₂, hc₂, hoperand, hrun⟩ := ih.bind_value hc₁ hrun
      cases hrun
      rw [hrest]
      exact ⟨hc₂, Reads.unary (show Reads (.tier UnaryOperator.not.tier operand) _ _ from hoperand)⟩
    · exact yields_leftAssociative (t := .comparison) nofun nofun rfl (yields_sum hsub (n + 1))
        (n + 1) c d e hc hrun

theorem yields_expressionOver (hsub : sub.Yields) (n : Nat) :
    (expressionOver sub n).Yields fun e => Reads (.expression e) := by
  intro c d e hc hrun
  obtain ⟨-, hrun⟩ | ⟨-, hrun⟩ := sees_cases hrun
  · obtain ⟨p, c₁, hc₁, hvar, hrun⟩ := (yields_keyword .var).bind_value hc hrun
    obtain ⟨name, c₂, hc₂, ⟨q, hname⟩, hrun⟩ := yields_expectIdentifier.bind_value hc₁ hrun
    obtain ⟨r, c₃, hc₃, hequals, hrun⟩ := (yields_symbol .equals).bind_value hc₂ hrun
    obtain ⟨value, c₄, hc₄, hvalue, hrun⟩ := hsub.expression.bind_value hc₃ hrun
    cases hrun
    rw [hvar, hname, hequals]
    exact ⟨hc₄, .assign hvalue⟩
  · have hlogical : (logical sub n).Yields fun e => Reads (.tier .logical e) :=
      yields_leftAssociative (t := .logical) nofun nofun rfl (yields_comparison hsub n) n
    obtain ⟨hd, he⟩ := hlogical.expecting expressionStart c d e hc hrun
    exact ⟨hd, .logical he⟩

/-! #### Statements and programs -/

/-- An attempt reads what the rule reads, or nothing. -/
theorem yields_attempt {rule : Rule Expr} {R : Expr → List Located → List Located → Prop} {k : Nat}
    (h : rule.Yields R) (hruns : rule.Runs k) : (attempt rule).Yields fun reply ts rest =>
      match reply with
      | some e => R e ts rest
      | none => rest = ts := by
  intro c d reply hc hrun
  have hreach := (hruns c hc).1
  unfold attempt at hrun
  rcases hr : rule c with ⟨e | e | _, d'⟩ <;> rw [hr] at hrun hreach
  · cases hrun
    exact h c _ _ hc hr
  · cases hrun
    -- a failed attempt goes back to where it started
    obtain ⟨htokens, hindex⟩ := rewind_same hreach e
    refine ⟨(rewind_reaches hreach hc e).ended hc, ?_⟩
    show Cursor.rest _ = c.rest
    simp only [Cursor.rest, htokens, hindex]
  · cases hrun

theorem yields_furtherStatements {ex : Rule Expr} {k : Nat}
    (h : ex.Yields fun e => Reads (.expression e)) (hruns : ex.Runs k) (n : Nat) :
    (furtherStatements ex n).Yields fun es ts rest =>
      (next rest).opensExpression = false → Reads (.further es) ts rest := by
  induction n with
  | zero => exact fun _ _ _ _ => nofun
  | succ n ih =>
    intro c d es hc hrun
    obtain ⟨count, c₁, hc₁, ⟨hrest, hcount⟩, hrun⟩ := yields_skipNewlines.bind_value hc hrun
    split at hrun
    · next hzero =>
      -- no separator, so nothing was skipped
      cases hrun
      refine ⟨hc₁, fun hends => ?_⟩
      rw [hrest] at hends ⊢
      exact .noFurther hends
    · next hsome =>
      obtain ⟨reply, c₂, hc₂, hreply, hrun⟩ := (yields_attempt h hruns).bind_value hc₁ hrun
      cases reply with
      | none =>
        cases hrun
        refine ⟨hc₂, fun hends => ?_⟩
        have hsame : _ = c₁.rest := hreply
        rw [hsame, hrest] at hends ⊢
        exact .noFurther hends
      | some e =>
        obtain ⟨others, c₃, hc₃, hothers, hrun⟩ := ih.bind_value hc₂ hrun
        cases hrun
        refine ⟨hc₃, fun hends => ?_⟩
        obtain ⟨p, ts, hnewline⟩ : ∃ p ts, c.rest = ⟨.newline, p⟩ :: ts := by
          have hnext : next c.rest = .newline := Classical.not_not.mp fun hne =>
            hsome (hcount.mpr hne)
          rw [hc.next_rest] at hnext
          obtain ⟨-, hcons⟩ := advance_of_peek hc hnext nofun
          exact ⟨_, _, hcons⟩
        rw [hnewline] at hrest ⊢
        have he : Reads (.expression e) (ts.dropWhile Located.isNewline) c₂.rest := by
          have hskip : c₁.rest = ts.dropWhile Located.isNewline := hrest
          rw [← hskip]
          exact hreply
        exact .further he (hothers hends)

theorem yields_statementsOver {ex : Rule Expr} {k : Nat}
    (h : ex.Yields fun e => Reads (.expression e)) (hruns : ex.Runs k) (n : Nat) :
    (statementsOver ex n).Yields fun e ts rest =>
      (next rest).opensExpression = false → Reads (.statements e) ts rest := by
  intro c d e hc hrun
  obtain ⟨_, c₁, hc₁, ⟨hrest, -⟩, hrun⟩ := yields_skipNewlines.bind_value hc hrun
  obtain ⟨first, c₂, hc₂, hfirst, hrun⟩ := h.bind_value hc₁ hrun
  obtain ⟨others, c₃, hc₃, hothers, hrun⟩ :=
    (yields_furtherStatements h hruns n).bind_value hc₂ hrun
  cases hrun
  rw [hrest] at hfirst
  exact ⟨hc₃, fun hends => .statements hfirst (hothers hends)⟩

theorem yields_expression (n : Nat) :
    (expression n).Yields fun e => Reads (.expression e) := by
  induction n with
  | zero => exact fun _ _ _ _ => nofun
  | succ n ih =>
    exact yields_expressionOver ⟨ih, yields_statementsOver ih (runs_expression n) n⟩ n

theorem yields_nested (n : Nat) : (nested n).Yields :=
  ⟨yields_expression n, yields_statementsOver (yields_expression n) (runs_expression n) n⟩

end Grammar

/-- The tokens are a program, that is, separators or statements up to an end of input, and after it
the tokens `rest`. -/
inductive ReadsProgram : Expr → List Located → List Located → Prop
  /-- No statement. -/
  | empty {p : Position} {tokens rest : List Located}
    (hskip : tokens.dropWhile Located.isNewline = ⟨.eof, p⟩ :: rest) :
    ReadsProgram (.list [] p) tokens rest
  /-- At least one statement. -/
  | statements {tree : Expr} {p : Position} {tokens rest : List Located}
    (htree : Reads (.statements tree) tokens (⟨.eof, p⟩ :: rest)) : ReadsProgram tree tokens rest

/-- Separators before the first statement do not matter. -/
theorem Reads.statements_of_skipped {e : Expr} {ts rest : List Located}
    (h : Reads (.statements e) (ts.dropWhile Located.isNewline) rest) :
    Reads (.statements e) ts rest := by
  cases h with
  | statements he hes =>
    rw [List.dropWhile_idempotent] at he
    exact .statements he hes

/-- The end of input occurs at the end and nowhere else. -/
def EndsOnce (tokens : List Located) : Prop :=
  EndsInput tokens ∧ ∀ t ∈ tokens.dropLast, t.token ≠ .eof

/-- At an end of input, the rest begins with it; if there is only one, it is all that is left. -/
theorem Cursor.Ended.rest_of_eof {tokens : List Located} {d : Cursor} (hd : d.Ended)
    (htokens : d.tokens = tokens.toArray) (hpeek : d.peek = .eof) :
    ∃ rest, d.rest = ⟨.eof, d.position⟩ :: rest ∧ (EndsOnce tokens → rest = []) := by
  have hcurrent : d.current = ⟨.eof, d.position⟩ := by
    rw [← hpeek]
    rfl
  refine ⟨d.tokens.toList.drop (d.index + 1), ?_, ?_⟩
  · rw [hd.rest_eq, hcurrent]
  · rintro ⟨-, honce⟩
    have hlast := hd.rest_eq_singleton hpeek (by rw [htokens]; exact honce)
    rw [hd.rest_eq] at hlast
    exact (List.cons.inj hlast).2

/-- A tree is read from a text of it. -/
theorem readsProgram_of_parse {tokens : List Located} {tree : Expr} (hend : EndsInput tokens)
    (h : (parse tokens).1 = .value tree) :
    ∃ rest, ReadsProgram tree tokens rest ∧ (EndsOnce tokens → rest = []) := by
  have hc := ended_ofTokens hend
  have hskip := hc.rest_skipNewlines
  have hreach := hc.reaches_skipNewlines
  have hc₁ := hreach.ended hc
  rw [rest_ofTokens] at hskip
  unfold parse at h
  rw [programOver_apply] at h
  generalize (Cursor.ofTokens tokens).skipNewlines.2 = c₁ at *
  split at h
  · next hempty =>
    cases h
    obtain ⟨rest, hrest, honce⟩ := hc₁.rest_of_eof hreach.tokens hempty
    exact ⟨rest, .empty (hskip.symm.trans hrest), honce⟩
  · have hruns := (runs_nested (bound tokens.length)).statements c₁ hc₁
    rcases hr : (nested (bound tokens.length)).statements c₁ with ⟨found | e | _, d⟩ <;>
      rw [hr] at h
    · obtain ⟨hd, hfound⟩ := (yields_nested _).statements c₁ d found hc₁ hr
      -- the cursor after the statements is one over the same tokens
      have hreach' : c₁.Reaches d := by
        have hafter := hruns.1
        rwa [hr] at hafter
      dsimp only at h
      split at h
      · next hlast =>
        cases h
        obtain ⟨rest, hrest, honce⟩ :=
          hd.rest_of_eof (hreach'.tokens.trans hreach.tokens) hlast
        rw [hskip, hrest] at hfound
        exact ⟨rest, .statements (hfound rfl).statements_of_skipped, honce⟩
      · cases h
    · cases h
    · cases h

end LineScript
