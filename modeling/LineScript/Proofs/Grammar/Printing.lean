import LineScript.Proofs.Grammar.Completeness
import LineScript.Proofs.Grammar.Rendering
import LineScript.Proofs.Grammar.WellFormed

/-!
# Printed expressions

A well-formed expression that is printed with the parentheses it needs is a text of the same
expression, up to the places in it.

  * `Expr.Alike` says that two trees differ at most in their places.
  * `Parens.needed` puts an operand in parentheses if it is looser than its place allows, or if it
    would go on with what follows it.
  * `Ends follow least token` says which token may come after an operand in its place.
  * `Expr.Printed` says that a printed expression is a text of it, and that the left operands of a
    chain are read one after the other.

**Going on.** How tight an operand is does not tell everything. A loop, function or conditional
whose last body is on the same line is open at its end: an operator after it belongs to the body and
not to the whole. In the same way an `ELSE` belongs to the innermost conditional that has none.
Parentheses by tightness alone are not enough for such operands.
-/

namespace LineScript

open Grammar

/-! ### Trees up to places -/

mutual

/-- The same expression at other places. -/
def Expr.relocate (f : Position → Position) : Expr → Expr
  | .number value p => .number value (f p)
  | .text value p => .text value (f p)
  | .list es p => .list (Expr.relocateAll f es) (f p)
  | .name name p => .name name (f p)
  | .assign name value p => .assign name (value.relocate f) (f p)
  | .binary op left right p => .binary op (left.relocate f) (right.relocate f) (f p)
  | .unary op operand p => .unary op (operand.relocate f) (f p)
  | .ifThen condition b rest p =>
    .ifThen (condition.relocate f) (b.relocate f) (rest.relocate f) (f p)
  | .forTo var start stop by_ b p =>
    .forTo var (start.relocate f) (stop.relocate f) (Expr.relocateStep f by_) (b.relocate f) (f p)
  | .whileDo condition b p => .whileDo (condition.relocate f) (b.relocate f) (f p)
  | .function name params b p => .function name params (b.relocate f) (f p)
  | .call callee arguments p => .call (callee.relocate f) (Expr.relocateAll f arguments) (f p)
termination_by structural e => e

/-- The same expressions at other places. -/
def Expr.relocateAll (f : Position → Position) : List Expr → List Expr
  | [] => []
  | e :: es => e.relocate f :: Expr.relocateAll f es
termination_by structural es => es

/-- The same step at other places. -/
def Expr.relocateStep (f : Position → Position) : Option Expr → Option Expr
  | none => none
  | some e => some (e.relocate f)
termination_by structural e => e

/-- The same body at other places. -/
def Body.relocate (f : Position → Position) : Body → Body
  | .inline e => .inline (e.relocate f)
  | .block e => .block (e.relocate f)
termination_by structural b => b

/-- The same branches at other places. -/
def Chain.relocate (f : Position → Position) : Chain → Chain
  | .done => .done
  | .otherwise b => .otherwise (b.relocate f)
  | .elif condition b rest => .elif (condition.relocate f) (b.relocate f) (rest.relocate f)
termination_by structural chain => chain

end

/-- Two expressions are the same up to places. -/
abbrev Expr.Alike (a b : Expr) : Prop :=
  (a.relocate fun _ => .start) = b.relocate fun _ => .start

/-- Two lists of expressions are the same up to places. -/
abbrev Expr.AllAlike (as bs : List Expr) : Prop :=
  Expr.relocateAll (fun _ => .start) as = Expr.relocateAll (fun _ => .start) bs

/-- Two bodies are the same up to places. -/
abbrev Body.Alike (a b : Body) : Prop :=
  (a.relocate fun _ => .start) = b.relocate fun _ => .start

/-- Two sequences of branches are the same up to places. -/
abbrev Chain.Alike (a b : Chain) : Prop :=
  (a.relocate fun _ => .start) = b.relocate fun _ => .start

/-! ### When parentheses are needed -/

/-- Whether a conditional with the body `before` and these branches after it ends with a body on the
same line. -/
def Chain.isOpen (before : Body) : Chain → Bool
  | done => !before.isBlock
  | otherwise b => !b.isBlock
  | elif _ b rest => rest.isOpen b

/-- Whether an `ELIF` or `ELSE` after these branches would be one of them. -/
def Chain.takesBranch (before : Body) : Chain → Bool
  | done => !before.isBlock
  | otherwise _ => false
  | elif _ b rest => rest.takesBranch b

/-- Whether an operator after the expression would belong to its last part. -/
def Expr.isOpen : Expr → Bool
  | ifThen _ b rest _ => rest.isOpen b
  | forTo _ _ _ _ b _ | whileDo _ b _ | function _ _ b _ => !b.isBlock
  | _ => false

/-- Whether an `ELIF` or `ELSE` after the expression would belong to it. -/
def Expr.takesBranch : Expr → Bool
  | ifThen _ b rest _ => rest.takesBranch b
  | _ => false

/-- Whether the expression would go on with what follows it. -/
def Expr.swallows (e : Expr) : Follow → Bool
  | .closed => false
  | .branch => e.takesBranch
  | .operator => e.isOpen

/-- Parentheses around what is looser than its place allows. -/
def Parens.byRank : Parens := fun _ least e => decide (e.rank < least)

/-- Parentheses around what is looser than its place allows, and around what would go on with what
follows it. -/
def Parens.needed : Parens := fun f least e => decide (e.rank < least) || e.swallows f

/-! ### Places in a text -/

/-- How tight a tier is. -/
def Tier.rank : Tier → Nat
  | logical => 1
  | comparison => 3
  | sum => 4
  | product => 5
  | factor => 6
  | power => 7
  | call => 8
  | atom => 9

/-- The phrase that an operand in a place is. -/
def Phrase.ranked : Nat → Expr → Phrase
  | 0, e => .expression e
  | 1, e => .tier .logical e
  | 2, e | 3, e => .tier .comparison e
  | 4, e => .tier .sum e
  | 5, e => .tier .product e
  | 6, e => .tier .factor e
  | 7, e => .tier .power e
  | 8, e => .tier .call e
  | _, e => .tier .atom e

/-- No operand that is at least so tight goes on with the token. -/
def Stops (least : Nat) (token : Token) : Prop :=
  ∀ t : Tier, least ≤ t.rank → t.continues token = false

/-- The token can come after an operand in a place. -/
structure Ends (f : Follow) (least : Nat) (token : Token) : Prop where
  /-- The operand does not go on with the token. -/
  stops : Stops least token
  /-- Only where an operator is announced does one follow. -/
  plain : f ≠ .operator → Stops 0 token
  /-- Only where a branch is announced does one follow. -/
  single : f = .closed → token ≠ .keyword .elif ∧ token ≠ .keyword .else_

theorem Stops.mono {least least' : Nat} {token : Token} (h : Stops least token)
    (hle : least ≤ least') : Stops least' token :=
  fun t ht => h t (Nat.le_trans hle ht)

theorem Ends.mono {f : Follow} {least least' : Nat} {token : Token} (h : Ends f least token)
    (hle : least ≤ least') : Ends f least' token :=
  ⟨h.stops.mono hle, h.plain, h.single⟩

/-- Where an operator is announced, nothing else is asked of what follows. -/
theorem Stops.operator {least : Nat} {token : Token} (h : Stops least token) :
    Ends .operator least token :=
  ⟨h, fun hne => absurd rfl hne, nofun⟩

/-- A tighter text is a text for a looser place, if nothing follows that goes on. -/
theorem Reads.ranked_of_succ {r : Nat} {e : Expr} {ts rest : List Located}
    (h : Reads (.ranked (r + 1) e) ts rest) (hstops : Stops r (next rest)) :
    Reads (.ranked r e) ts rest := by
  -- each place is the phrase of a tier, and the next tighter one is that of the tier below
  match r with
  | 0 => exact .logical h
  | 1 => exact .loosen nofun h (hstops .logical (by decide))
  | 2 => exact h
  | 3 => exact .loosen nofun h (hstops .comparison (by decide))
  | 4 => exact .loosen nofun h (hstops .sum (by decide))
  | 5 => exact .loosen nofun h (hstops .product (by decide))
  | 6 => exact .loosen nofun h (hstops .factor (by decide))
  | 7 => exact .loosen nofun h (hstops .power (by decide))
  | 8 => exact .loosen nofun h (hstops .call (by decide))
  | _ + 9 => exact h

theorem Reads.ranked_of_le {least r : Nat} {e : Expr} {ts rest : List Located} (hle : least ≤ r)
    (h : Reads (.ranked r e) ts rest) (hstops : Stops least (next rest)) :
    Reads (.ranked least e) ts rest := by
  induction hle with
  | refl => exact h
  | step hle ih => exact ih (h.ranked_of_succ (hstops.mono hle))

/-! ### Words and their tokens -/

theorem Located.token_of_word {t : Located} {token : Token} (h : t.word = .token token) :
    t = ⟨token, t.position⟩ := by
  obtain ⟨found, p⟩ := t
  unfold Located.word at h
  split at h
  · cases h
  · cases h
    rfl

theorem Located.number_of_word {t : Located} {value : Float} (h : t.word = .number value) :
    t.token.number? = some value := by
  unfold Located.word at h
  split at h
  · next found hfound =>
    cases h
    exact hfound
  · cases h

/-- The first of several words that is no number is the first of their tokens. -/
theorem map_word_eq_cons_iff {ts : List Located} {token : Token} {ws : List Word}
    (htoken : token.number? = none) :
    ts.map Located.word = .token token :: ws ↔
      ∃ p ts', ts = ⟨token, p⟩ :: ts' ∧ ts'.map Located.word = ws := by
  constructor
  · intro h
    obtain ⟨t, ts', rfl, ht, hts'⟩ := List.map_eq_cons_iff.mp h
    exact ⟨t.position, ts', by rw [← Located.token_of_word ht], hts'⟩
  · rintro ⟨p, ts', rfl, rfl⟩
    simp only [List.map_cons, Located.word, htoken]

/-- The first word is a symbol. -/
theorem tokens_of_symbol {ts : List Located} {mark : Symbol} {ws : List Word} :
    ts.map Located.word = .symbol mark :: ws ↔
      ∃ p ts', ts = ⟨.symbol mark, p⟩ :: ts' ∧ ts'.map Located.word = ws :=
  map_word_eq_cons_iff rfl

/-- The first word is a keyword. -/
theorem tokens_of_keyword {ts : List Located} {word : Keyword} {ws : List Word} :
    ts.map Located.word = .keyword word :: ws ↔
      ∃ p ts', ts = ⟨.keyword word, p⟩ :: ts' ∧ ts'.map Located.word = ws :=
  map_word_eq_cons_iff rfl

/-- The first word is a name. -/
theorem tokens_of_name {ts : List Located} {name : String} {ws : List Word} :
    ts.map Located.word = .name name :: ws ↔
      ∃ p ts', ts = ⟨.identifier name, p⟩ :: ts' ∧ ts'.map Located.word = ws :=
  map_word_eq_cons_iff rfl

/-- The first word is a separator. -/
theorem tokens_of_newline {ts : List Located} {ws : List Word} :
    ts.map Located.word = .token .newline :: ws ↔
      ∃ p ts', ts = ⟨.newline, p⟩ :: ts' ∧ ts'.map Located.word = ws :=
  map_word_eq_cons_iff rfl

/-! ### Printed expressions -/

/-- The tokens that close a place: no expression goes on with them. -/
def Token.closes : Token → Bool
  | symbol .rparen | symbol .rbracket | symbol .comma | keyword .then_ | keyword .to_
  | keyword .step | newline | eof => true
  | _ => false

theorem ends_of_closes (token : Token) (h : token.closes) (f : Follow) (least : Nat) :
    Ends f least token := by
  have hstops : Stops 0 token := by
    intro t _
    unfold Token.closes at h
    split at h <;> first | (cases t <;> rfl) | cases h
  refine ⟨hstops.mono (Nat.zero_le _), fun _ => hstops, fun _ => ⟨?_, ?_⟩⟩ <;>
    · rintro rfl
      cases h

/-- A printed expression, without parentheses around it, is a text of it. -/
def Expr.PrintedBare (e : Expr) : Prop :=
  ∀ f ts rest, e.swallows f = false → ts.map Located.word = e.words .needed f →
    Ends f e.rank (next rest) →
      ∃ e' : Expr, e'.Alike e ∧ Reads (.ranked e.rank e') (ts ++ rest) rest

/-- A printed expression in its place is a text for that place. -/
def Expr.PrintedIn (e : Expr) : Prop :=
  ∀ f least ts rest, ts.map Located.word = place .needed f least e (fun g => e.words .needed g) →
    Ends f least (next rest) → ∃ e' : Expr, e'.Alike e ∧ Reads (.ranked least e') (ts ++ rest) rest

theorem Reads.ranked_of_atom {least : Nat} {e : Expr} {ts rest : List Located}
    (h : Reads (.tier .atom e) ts rest) (hstops : Stops least (next rest)) :
    Reads (.ranked least e) ts rest := by
  by_cases hle : least ≤ 9
  · exact Reads.ranked_of_le hle h hstops
  · obtain ⟨k, rfl⟩ : ∃ k, least = k + 9 := ⟨least - 9, by omega⟩
    exact h

theorem Expr.PrintedBare.printedIn {e : Expr} (h : e.PrintedBare) : e.PrintedIn := by
  intro f least ts rest hwords hends
  unfold place at hwords
  split at hwords
  · -- in parentheses nothing can follow that goes on
    simp only [List.cons_append, tokens_of_symbol, List.map_eq_append_iff, List.map_eq_nil_iff]
      at hwords
    obtain ⟨p, _, rfl, inner, _, rfl, hinner, q, _, rfl, rfl⟩ := hwords
    have hclosed := ends_of_closes (.symbol .rparen) rfl
    obtain ⟨e', halike, hread⟩ :=
      h .closed inner (⟨.symbol .rparen, q⟩ :: rest) rfl hinner (hclosed _ _)
    have hexpression : Reads (.expression e') (inner ++ ⟨.symbol .rparen, q⟩ :: rest)
        (⟨.symbol .rparen, q⟩ :: rest) :=
      Reads.ranked_of_le (Nat.zero_le _) hread (hclosed .closed 0).stops
    refine ⟨e', halike, ?_⟩
    rw [List.cons_append, List.append_assoc]
    exact (Reads.grouping hexpression).ranked_of_atom hends.stops
  · next hparens =>
    simp only [Parens.needed, Bool.or_eq_true, decide_eq_true_eq, not_or, Nat.not_lt,
      Bool.not_eq_true] at hparens
    obtain ⟨hrank, hswallows⟩ := hparens
    obtain ⟨e', halike, hread⟩ := h f ts rest hswallows hwords (hends.mono hrank)
    exact ⟨e', halike, hread.ranked_of_le hrank hends.stops⟩

/-- A printed left operand of a tier, and the operators after it, are a text of the tier. -/
def Expr.PrintedLeft (e : Expr) : Prop :=
  ∀ (t : Tier) ts mid, t.rank < 6 →
    ts.map Located.word = place .needed .operator t.rank e (fun g => e.words .needed g) →
    Stops (t.rank + 1) (next mid) →
    ∃ e' : Expr, e'.Alike e ∧
      ∀ whole rest, Reads (.chain t e' whole) mid rest → Reads (.tier t whole) (ts ++ mid) rest

/-- A printed expression is a text of it, wherever it stands. -/
structure Expr.Printed (e : Expr) : Prop where
  /-- In its place, with parentheses if it needs them. -/
  whole : e.PrintedIn
  /-- As the left operand of an operator. -/
  left : e.PrintedLeft

theorem Tier.ranked_below (t : Tier) (e : Expr) :
    Phrase.ranked (t.rank + 1) e = .tier t.below e := by
  cases t <;> rfl

/-- An operand that is not of the tier itself is its first operand. -/
theorem Expr.PrintedIn.first {e : Expr} (h : e.PrintedIn) {t : Tier} {ts mid : List Located}
    (ht : t.rank < 6) (hne : e.rank ≠ t.rank)
    (hwords : ts.map Located.word =
      place .needed .operator t.rank e (fun g => e.words .needed g))
    (hstops : Stops (t.rank + 1) (next mid)) :
    ∃ e' : Expr, e'.Alike e ∧
      ∀ whole rest, Reads (.chain t e' whole) mid rest →
        Reads (.tier t whole) (ts ++ mid) rest := by
  -- it is put in parentheses here exactly if it would be in the place of the tier below
  have hplace : place .needed .operator t.rank e (fun g => e.words .needed g) =
      place .needed .operator (t.rank + 1) e (fun g => e.words .needed g) := by
    have hiff : e.rank < t.rank ↔ e.rank < t.rank + 1 := by omega
    unfold place Parens.needed
    simp only [hiff]
  rw [hplace] at hwords
  obtain ⟨e', halike, hread⟩ :=
    h .operator (t.rank + 1) ts mid hwords hstops.operator
  rw [Tier.ranked_below] at hread
  have hatom : t ≠ .atom := by
    rintro rfl
    exact absurd ht (by decide)
  exact ⟨e', halike, fun whole rest hchain => .operators hatom hread hchain⟩

/-- What is no operator of the four loosest tiers is always a first operand. -/
theorem Expr.PrintedBare.printed {e : Expr} (h : e.PrintedBare)
    (hrank : e.rank = 0 ∨ e.rank = 2 ∨ 6 ≤ e.rank) : e.Printed := by
  refine ⟨h.printedIn, ?_⟩
  intro t ts mid ht hwords hstops
  have hne : e.rank ≠ t.rank := by
    cases t <;> simp only [Tier.rank] at ht ⊢ <;> omega
  exact h.printedIn.first ht hne hwords hstops

theorem Expr.PrintedBare.printed_atom {e : Expr} (h : e.PrintedBare) (hatom : e.rank = 9) :
    e.Printed :=
  h.printed (by omega)

/-! ### Operators -/

/-- The tier of an operator and its operands. -/
def BinaryOperator.tier : BinaryOperator → Tier
  | and | or => .logical
  | equal | notEqual | less | greater | lessEqual | greaterEqual => .comparison
  | add | sub => .sum
  | mul | div => .product
  | pow => .power

namespace BinaryOperator

theorem accepts_tier (op : BinaryOperator) : op.tier.accepts op = true := by
  cases op <;> rfl

theorem rank_tier (op : BinaryOperator) : op.tier.rank = op.rank := by
  cases op <;> rfl

theorem ranked_tier (op : BinaryOperator) (e : Expr) :
    Phrase.ranked op.rank e = .tier op.tier e := by
  cases op <;> rfl

/-- Operators other than `^` group to the left. -/
theorem ranks_of_ne_pow {op : BinaryOperator} (h : op ≠ pow) :
    op.rank < 6 ∧ op.leftRank = op.rank ∧ op.rightRank = op.rank + 1 ∧
      op.tier.operand = op.tier.below := by
  cases op <;> first | exact absurd rfl h | decide

/-- An operator ends every operand that is tighter. -/
theorem stops_symbol (op : BinaryOperator) : Stops (op.rank + 1) (.symbol op.symbol) := by
  intro t ht
  cases op <;> cases t <;> first | rfl | exact absurd ht (by decide)

end BinaryOperator

section operators

variable {left right : Expr} {op : BinaryOperator} {p : Position}

/-- The operands of an operator that groups to the left, one after the other. -/
theorem printed_operands (hop : op ≠ .pow) (hleft : left.Printed) (hright : right.Printed)
    {f : Follow} {ts mid : List Located}
    (hwords : ts.map Located.word = (Expr.binary op left right p).words .needed f)
    (hends : Ends f (op.rank + 1) (next mid)) :
    ∃ e' : Expr, e'.Alike (.binary op left right p) ∧ ∀ whole rest,
      Reads (.chain op.tier e' whole) mid rest → Reads (.tier op.tier whole) (ts ++ mid) rest := by
  obtain ⟨hrank, hleftRank, hrightRank, hoperand⟩ := BinaryOperator.ranks_of_ne_pow hop
  have htier := op.rank_tier
  simp only [Expr.words, hleftRank, hrightRank, List.map_eq_append_iff, tokens_of_symbol] at hwords
  obtain ⟨ts₁, _, rfl, hwords₁, q, ts₂, rfl, hwords₂⟩ := hwords
  rw [← htier] at hwords₁ hrank
  -- the left operand is read as far as its own operators go; this operator is the next link
  obtain ⟨left', hleft', hchain⟩ := hleft.left op.tier ts₁
    (⟨.symbol op.symbol, q⟩ :: (ts₂ ++ mid)) hrank hwords₁ (htier ▸ op.stops_symbol)
  obtain ⟨right', hright', hread⟩ := hright.whole f (op.rank + 1) ts₂ mid hwords₂ hends
  rw [← htier, Tier.ranked_below, ← hoperand] at hread
  refine ⟨.binary op left' right' left'.position, ?_, ?_⟩
  · simp only [Expr.Alike, Expr.relocate, hleft', hright']
  · intro whole rest hafter
    have hlink := hchain whole rest (.link op.accepts_tier hread hafter)
    simpa using hlink

theorem printed_power (hleft : left.Printed) (hright : right.Printed) :
    (Expr.binary .pow left right p).PrintedBare := by
  intro f ts rest _ hwords hends
  have hends' : Ends f 7 (next rest) := hends
  simp only [Expr.words, List.map_eq_append_iff, tokens_of_symbol] at hwords
  obtain ⟨ts₁, _, rfl, hwords₁, q, ts₂, rfl, hwords₂⟩ := hwords
  have hcall : Ends .operator 8 (.symbol .caret) := (BinaryOperator.stops_symbol .pow).operator
  obtain ⟨left', hleft', hbase⟩ := hleft.whole .operator 8 ts₁
    (⟨.symbol .caret, q⟩ :: (ts₂ ++ rest)) hwords₁ hcall
  -- an exponent is a factor, and factors have no operator of their own
  have hfactor : Ends f 6 (next rest) := by
    refine ⟨?_, hends'.plain, hends'.single⟩
    intro t ht
    by_cases hfactor : t = .factor
    · rw [hfactor]
      exact continues_factor _
    · refine hends'.stops t ?_
      cases t <;> first | exact absurd rfl hfactor | exact absurd ht (by decide) | decide
  obtain ⟨right', hright', hexponent⟩ := hright.whole f 6 ts₂ rest hwords₂ hfactor
  have hstop : Tier.power.continues (next rest) = false := hends'.stops .power (by decide)
  have haccepts : Tier.power.accepts .pow = true := rfl
  refine ⟨.binary .pow left' right' left'.position, ?_, ?_⟩
  · simp only [Expr.Alike, Expr.relocate, hleft', hright']
  · have hlink : Reads (.chain .power left' (.binary .pow left' right' left'.position))
        (⟨.symbol BinaryOperator.pow.symbol, q⟩ :: (ts₂ ++ rest)) rest :=
      .link haccepts hexponent (.stop hstop)
    rw [List.append_assoc, List.cons_append]
    exact .operators nofun hbase hlink

theorem printed_binary (hleft : left.Printed) (hright : right.Printed) :
    (Expr.binary op left right p).Printed := by
  by_cases hop : op = .pow
  · subst hop
    exact (printed_power hleft hright).printed (.inr (.inr (show 6 ≤ 7 by decide)))
  have htier := op.rank_tier
  -- by itself, the chain stops after the right operand
  have hbare : (Expr.binary op left right p).PrintedBare := by
    intro f ts rest _ hwords hends
    have hends' : Ends f op.rank (next rest) := hends
    obtain ⟨e', halike, hread⟩ :=
      printed_operands hop hleft hright hwords (hends'.mono (Nat.le_succ _))
    refine ⟨e', halike, ?_⟩
    rw [Expr.rank, op.ranked_tier]
    exact hread e' rest (.stop (hends'.stops op.tier (Nat.le_of_eq htier.symm)))
  -- as a left operand, the chain goes on
  refine ⟨hbare.printedIn, ?_⟩
  intro t ts mid ht hwords hstops
  by_cases hsame : op.rank = t.rank
  · -- an operator of the tier itself: its operands are operands of the tier
    have hbareWords : place .needed .operator t.rank (.binary op left right p)
        (fun g => (Expr.binary op left right p).words .needed g) =
          (Expr.binary op left right p).words .needed .operator := by
      simp [place, Parens.needed, Expr.rank, hsame, Expr.swallows, Expr.isOpen]
    have hequal : op.tier = t := by
      rw [← htier] at hsame
      revert hsame ht
      cases op <;> cases t <;> decide
    rw [hbareWords] at hwords
    subst hequal
    rw [htier] at hstops
    exact printed_operands hop hleft hright hwords hstops.operator
  · exact hbare.printedIn.first ht hsame hwords hstops

end operators

theorem printed_unary {operand : Expr} (h : operand.Printed) (op : UnaryOperator) (p : Position) :
    (Expr.unary op operand p).Printed := by
  have htier (e : Expr) : Phrase.ranked op.rank e = .tier op.tier e := by cases op <;> rfl
  have hrank : op.rank = 2 ∨ 6 ≤ op.rank := by cases op <;> decide
  refine Expr.PrintedBare.printed ?_ (.inr hrank)
  intro f ts rest _ hwords hends
  simp only [Expr.words, tokens_of_symbol] at hwords
  obtain ⟨q, ts', rfl, hwords'⟩ := hwords
  obtain ⟨operand', halike, hread⟩ := h.whole f op.rank ts' rest hwords' hends
  rw [htier] at hread
  refine ⟨.unary op operand' q, ?_, ?_⟩
  · simp only [Expr.Alike, Expr.relocate, halike]
  · rw [Expr.rank, htier, List.cons_append]
    exact .unary hread

/-! ### Names, literals and assignments -/

theorem printed_number (value : Float) (p : Position) : (Expr.number value p).Printed := by
  refine Expr.PrintedBare.printed_atom ?_ rfl
  intro f ts rest _ hwords _
  obtain ⟨⟨token, q⟩, rfl, hword⟩ := List.map_eq_singleton_iff.mp hwords
  exact ⟨.number value q, rfl, .number (Located.number_of_word hword)⟩

theorem printed_text (value : String) (p : Position) : (Expr.text value p).Printed := by
  refine Expr.PrintedBare.printed_atom ?_ rfl
  intro f ts rest _ hwords _
  obtain ⟨q, _, rfl, hnil⟩ := (map_word_eq_cons_iff rfl).mp hwords
  obtain rfl := List.map_eq_nil_iff.mp hnil
  exact ⟨.text value q, rfl, .text⟩

theorem printed_name (name : String) (p : Position) : (Expr.name name p).Printed := by
  refine Expr.PrintedBare.printed_atom ?_ rfl
  intro f ts rest _ hwords _
  obtain ⟨q, _, rfl, hnil⟩ := tokens_of_name.mp hwords
  obtain rfl := List.map_eq_nil_iff.mp hnil
  exact ⟨.name name q, rfl, .name⟩

theorem printed_assign {value : Expr} (h : value.Printed) (name : String) (p : Position) :
    (Expr.assign name value p).Printed := by
  refine Expr.PrintedBare.printed ?_ (.inl rfl)
  intro f ts rest _ hwords hends
  simp only [Expr.words, tokens_of_keyword, tokens_of_name, tokens_of_symbol] at hwords
  obtain ⟨q, _, rfl, _, _, rfl, _, ts', rfl, hwords'⟩ := hwords
  obtain ⟨value', halike, hread⟩ := h.whole f 0 ts' rest hwords' hends
  refine ⟨.assign name value' q, ?_, .assign hread⟩
  simp only [Expr.Alike, Expr.relocate, halike]

/-! ### Lists and calls -/

/-- Several expressions with commas between them, and the symbol that closes them. -/
theorem printed_items (closing : Symbol) (hclosing : (Token.symbol closing).closes) {e : Expr}
    {es : List Expr} (h : ∀ a ∈ e :: es, a.Printed) {ts rest : List Located} {q : Position}
    (hwords : ts.map Located.word = Expr.wordsJoined .needed (.symbol .comma) (e :: es)) :
    ∃ es' : List Expr, Expr.AllAlike es' (e :: es) ∧
      Reads (.items closing es') (ts ++ ⟨.symbol closing, q⟩ :: rest) rest := by
  have hclosed (token : Token) (htoken : token.closes) := ends_of_closes token htoken .closed 0
  -- each expression is closed by a comma, the last one by the closing symbol
  induction es generalizing e ts with
  | nil =>
    obtain ⟨e', halike, hread⟩ := (h e List.mem_cons_self).whole .closed 0 ts
      (⟨.symbol closing, q⟩ :: rest) hwords (hclosed _ hclosing)
    refine ⟨[e'], ?_, .last hread⟩
    simp only [Expr.AllAlike, Expr.relocateAll, halike]
  | cons a es ih =>
    simp only [Expr.wordsJoined, List.map_eq_append_iff, tokens_of_symbol] at hwords
    obtain ⟨ts₁, _, rfl, hwords₁, r, ts₂, rfl, hwords₂⟩ := hwords
    obtain ⟨e', halike, hread⟩ := (h e List.mem_cons_self).whole .closed 0 ts₁
      (⟨.symbol .comma, r⟩ :: (ts₂ ++ ⟨.symbol closing, q⟩ :: rest)) hwords₁ (hclosed _ rfl)
    obtain ⟨es', hes, hreads⟩ := ih (fun b hb => h b (List.mem_cons_of_mem _ hb)) hwords₂
    refine ⟨e' :: es', ?_, ?_⟩
    · rw [Expr.AllAlike, Expr.relocateAll, halike, hes, Expr.relocateAll.eq_2 _ e]
    · rw [List.append_assoc, List.cons_append]
      exact .more hread hreads

theorem printed_separated (closing : Symbol) (hclosing : (Token.symbol closing).closes)
    {es : List Expr} (h : ∀ a ∈ es, a.Printed) {ts rest : List Located} {q : Position}
    (hwords : ts.map Located.word = Expr.wordsJoined .needed (.symbol .comma) es) :
    ∃ es' : List Expr, Expr.AllAlike es' es ∧
      Reads (.separated closing es') (ts ++ ⟨.symbol closing, q⟩ :: rest) rest := by
  cases es with
  | nil =>
    obtain rfl := List.map_eq_nil_iff.mp hwords
    exact ⟨[], rfl, .noItems⟩
  | cons e es =>
    obtain ⟨es', hes, hreads⟩ := printed_items closing hclosing h hwords
    exact ⟨es', hes, .items hreads⟩

theorem printed_list {es : List Expr} (h : ∀ a ∈ es, a.Printed) (p : Position) :
    (Expr.list es p).Printed := by
  refine Expr.PrintedBare.printed_atom ?_ rfl
  intro f ts rest _ hwords _
  simp only [Expr.words, List.cons_append, tokens_of_symbol, List.map_eq_append_iff,
    List.map_eq_nil_iff] at hwords
  obtain ⟨q, _, rfl, inner, _, rfl, hinner, r, _, rfl, rfl⟩ := hwords
  obtain ⟨es', halike, hread⟩ := printed_separated .rbracket rfl h hinner
  refine ⟨.list es' q, ?_, ?_⟩
  · simp only [Expr.Alike, Expr.relocate, halike]
  · rw [List.cons_append, List.append_assoc]
    exact .list hread

theorem printed_call {callee : Expr} {arguments : List Expr} (hcallee : callee.Printed)
    (harguments : ∀ a ∈ arguments, a.Printed) (p : Position) :
    (Expr.call callee arguments p).Printed := by
  refine Expr.PrintedBare.printed ?_ (.inr (.inr (show 6 ≤ 8 by decide)))
  intro f ts rest _ hwords _
  simp only [Expr.words, List.append_assoc, List.cons_append, List.map_eq_append_iff,
    tokens_of_symbol, List.map_eq_nil_iff] at hwords
  obtain ⟨ts₁, _, rfl, hwords₁, q, _, rfl, inner, _, rfl, hinner, r, _, rfl, rfl⟩ := hwords
  -- an atom ends at the arguments of a call
  have hstops : Stops 9 (.symbol .lparen) := by
    intro t ht
    cases t <;> first | rfl | exact absurd ht (by decide)
  obtain ⟨arguments', halike, hreads⟩ := printed_separated .rparen rfl harguments hinner
  obtain ⟨callee', hcallee', hread⟩ := hcallee.whole .operator 9 ts₁
    (⟨.symbol .lparen, q⟩ :: (inner ++ ⟨.symbol .rparen, r⟩ :: rest)) hwords₁ hstops.operator
  refine ⟨.call callee' arguments' callee'.position, ?_, ?_⟩
  · simp only [Expr.Alike, Expr.relocate, hcallee', halike]
  · simp only [List.append_assoc, List.cons_append, List.nil_append]
    exact .call hread hreads

/-! ### Statements and bodies -/

/-- An expression does not begin with a separator. -/
theorem Reads.dropWhile_isNewline {e : Expr} {ts rest : List Located}
    (h : Reads (.expression e) ts rest) : ts.dropWhile Located.isNewline = ts := by
  cases ts with
  | nil => rfl
  | cons t ts =>
    have hnewline : t.token ≠ .newline := next_ne_of_opens h.opens rfl
    exact List.dropWhile_cons_of_neg (by simpa [Located.isNewline] using hnewline)

/-- Statements on lines of their own, before a token that opens no expression. -/
theorem printed_lines {e : Expr} {es : List Expr} (h : ∀ a ∈ e :: es, a.Printed)
    {ts rest : List Located}
    (hwords : ts.map Located.word = Expr.wordsJoined .needed (.token .newline) (e :: es))
    (hends : Ends .closed 0 (next rest))
    (hlast : (next (rest.dropWhile Located.isNewline)).opensExpression = false) :
    ∃ e' es' mid, Expr.AllAlike (e' :: es') (e :: es) ∧
      Reads (.expression e') (ts ++ rest) mid ∧
      Reads (.further es') mid (rest.dropWhile Located.isNewline) := by
  -- each statement is closed by a separator, the last one by what follows
  induction es generalizing e ts with
  | nil =>
    obtain ⟨e', halike, hread⟩ := (h e List.mem_cons_self).whole .closed 0 ts rest hwords hends
    refine ⟨e', [], rest, ?_, hread, .noFurther hlast⟩
    simp only [Expr.AllAlike, Expr.relocateAll, halike]
  | cons a es ih =>
    simp only [Expr.wordsJoined, List.map_eq_append_iff, tokens_of_newline] at hwords
    obtain ⟨ts₁, _, rfl, hwords₁, p, ts₂, rfl, hwords₂⟩ := hwords
    obtain ⟨a', es', mid, hes, hnext, hfurther⟩ :=
      ih (fun b hb => h b (List.mem_cons_of_mem _ hb)) hwords₂
    obtain ⟨e', halike, hread⟩ := (h e List.mem_cons_self).whole .closed 0 ts₁
      (⟨.newline, p⟩ :: (ts₂ ++ rest)) hwords₁ (ends_of_closes .newline rfl _ _)
    refine ⟨e', a' :: es', ⟨.newline, p⟩ :: (ts₂ ++ rest), ?_, ?_, ?_⟩
    · rw [Expr.AllAlike, Expr.relocateAll, halike, hes, Expr.relocateAll.eq_2 _ e]
    · rwa [List.append_assoc, List.cons_append]
    · refine .further ?_ hfurther
      rwa [hnext.dropWhile_isNewline]

/-- The statements of a block or a program. -/
theorem printed_statements {e : Expr} {es : List Expr} (h : ∀ a ∈ e :: es, a.Printed)
    {ts rest : List Located}
    (hwords : ts.map Located.word = Expr.wordsJoined .needed (.token .newline) (e :: es))
    (hends : Ends .closed 0 (next rest))
    (hlast : (next (rest.dropWhile Located.isNewline)).opensExpression = false) (p : Position) :
    ∃ block : Expr, block.Alike (.list (e :: es) p) ∧
      Reads (.statements block) (ts ++ rest) (rest.dropWhile Located.isNewline) := by
  obtain ⟨e', es', mid, halike, hread, hfurther⟩ := printed_lines h hwords hends hlast
  refine ⟨.list (e' :: es') e'.position, ?_, ?_⟩
  · simp only [Expr.Alike, Expr.relocate, halike]
  · refine .statements ?_ hfurther
    rwa [hread.dropWhile_isNewline]

/-- The parts of a body are texts of what they are, wherever they stand. -/
def Body.Printed : Body → Prop
  | inline e => e.Printed
  | block e => ∃ s ss p, e = .list (s :: ss) p ∧ ∀ a ∈ s :: ss, a.Printed

/-- A block up to the token that comes after it. -/
theorem printed_block {e : Expr} (h : (Body.block e).Printed) {ts rest : List Located}
    (hwords : ts.map Located.word = Expr.lines .needed e ++ [.token .newline])
    (hrest : next rest ≠ .newline) (hlast : (next rest).opensExpression = false) :
    ∃ e' : Expr, e'.Alike e ∧ Reads (.statements e') (ts ++ rest) rest := by
  obtain ⟨s, ss, p, rfl, hss⟩ := h
  simp only [Expr.lines, List.map_eq_append_iff, tokens_of_newline, List.map_eq_nil_iff] at hwords
  obtain ⟨ts₁, _, rfl, hwords₁, q, _, rfl, rfl⟩ := hwords
  -- the separator after the last statement is skipped with the statements
  have hdrop : (⟨.newline, q⟩ :: rest).dropWhile Located.isNewline = rest := by
    rw [List.dropWhile_cons_of_pos rfl]
    cases rest with
    | nil => rfl
    | cons t rest => exact List.dropWhile_cons_of_neg (by simpa [Located.isNewline] using hrest)
  have hends : Ends .closed 0 (next (⟨.newline, q⟩ :: rest)) := ends_of_closes .newline rfl _ _
  have hread := printed_statements hss hwords₁ hends (by rwa [hdrop]) p
  rw [hdrop] at hread
  simpa using hread

/-- Where no operator follows, nothing goes on. -/
theorem Ends.loosest {f : Follow} {least : Nat} {token : Token} (h : Ends f least token)
    (hf : f ≠ .operator) : Ends f 0 token :=
  ⟨h.plain hf, h.plain, h.single⟩

section bodies

variable {b : Body} {f : Follow} {ts rest : List Located}

/-- Only a block comes before an operator. -/
theorem Expr.isBlock_of_swallows {e : Expr} (h : e.swallows f = false)
    (hopen : e.isOpen = !b.isBlock) (hf : f = .operator) : b.isBlock = true := by
  rw [hf, Expr.swallows, hopen] at h
  simpa using h

theorem printed_body (h : b.Printed) (hblock : f = .operator → b.isBlock = true)
    (hwords : ts.map Located.word = b.words .needed f ++ b.ending) (hends : Ends f 9 (next rest)) :
    ∃ b' : Body, b'.Alike b ∧ Reads (.body b') (ts ++ rest) rest := by
  cases b with
  | inline e =>
    -- a body on the same line is the last part of an open expression
    have hf : f ≠ .operator := fun hf => absurd (hblock hf) nofun
    rw [Body.words, Body.ending_inline, List.append_nil] at hwords
    obtain ⟨e', halike, hread⟩ := h.whole f 0 ts rest hwords (hends.loosest hf)
    refine ⟨.inline e', ?_, .inline hread⟩
    simp only [Body.Alike, Body.relocate, halike]
  | block e =>
    simp only [Body.words, Body.ending_block, List.cons_append, tokens_of_newline] at hwords
    obtain ⟨p, _, rfl, hwords⟩ := hwords
    obtain ⟨ts₁, _, rfl, hwords₁, hend⟩ := List.map_eq_append_iff.mp hwords
    obtain ⟨q, _, rfl, hnil⟩ := tokens_of_keyword.mp hend
    obtain rfl := List.map_eq_nil_iff.mp hnil
    have hnewline : next (⟨.keyword .end_, q⟩ :: rest) ≠ .newline := nofun
    obtain ⟨e', halike, hread⟩ := printed_block h hwords₁ hnewline rfl
    refine ⟨.block e', ?_, ?_⟩
    · simp only [Body.Alike, Body.relocate, halike]
    · rw [List.cons_append, List.append_assoc]
      exact .block hread

/-- The body of a function has an arrow before it if it is on the same line. -/
theorem printed_functionBody (h : b.Printed) (hblock : f = .operator → b.isBlock = true)
    (hwords : ts.map Located.word = b.arrow ++ (b.words .needed f ++ b.ending))
    (hends : Ends f 9 (next rest)) :
    ∃ b' : Body, b'.Alike b ∧ Reads (.functionBody b') (ts ++ rest) rest := by
  -- but for the arrow, it is read as any other body
  cases b with
  | inline e =>
    obtain ⟨p, ts', rfl, hwords'⟩ := tokens_of_symbol.mp hwords
    obtain ⟨b', halike, hread⟩ := printed_body h hblock hwords' hends
    rw [List.cons_append]
    generalize ts' ++ rest = all at hread ⊢
    cases hread with
    | inline he => exact ⟨_, halike, .arrow he⟩
    | block => cases halike
  | block e =>
    obtain ⟨b', halike, hread⟩ := printed_body h hblock hwords hends
    generalize ts ++ rest = all at hread ⊢
    cases hread with
    | inline => cases halike
    | block he => exact ⟨_, halike, .functionBlock he⟩

end bodies

/-! ### Loops -/

/-- The step of a loop before the `THEN` of the loop. -/
theorem printed_step {by_ : Option Expr} (h : ∀ e ∈ by_, e.Printed) {ts rest : List Located}
    {p : Position} (hwords : ts.map Located.word = Expr.stepWords .needed by_) :
    ∃ by' : Option Expr,
      Expr.relocateStep (fun _ => .start) by' = Expr.relocateStep (fun _ => .start) by_ ∧
      Reads (.step by') (ts ++ ⟨.keyword .then_, p⟩ :: rest) (⟨.keyword .then_, p⟩ :: rest) ∧
      (next (ts ++ ⟨.keyword .then_, p⟩ :: rest)).closes := by
  cases by_ with
  | none =>
    obtain rfl := List.map_eq_nil_iff.mp hwords
    exact ⟨none, rfl, .noStep nofun, rfl⟩
  | some e =>
    obtain ⟨q, ts', rfl, hwords'⟩ := tokens_of_keyword.mp hwords
    obtain ⟨e', halike, hread⟩ := (h e rfl).whole .closed 0 ts' (⟨.keyword .then_, p⟩ :: rest)
      hwords' (ends_of_closes (.keyword .then_) rfl _ _)
    refine ⟨some e', ?_, .step hread, rfl⟩
    simp only [Expr.relocateStep, halike]

theorem printed_forTo {start stop : Expr} {by_ : Option Expr} {b : Body} (hstart : start.Printed)
    (hstop : stop.Printed) (hstep : ∀ e ∈ by_, e.Printed) (hbody : b.Printed) (var : String)
    (p : Position) : (Expr.forTo var start stop by_ b p).Printed := by
  refine Expr.PrintedBare.printed_atom ?_ rfl
  intro f ts rest hswallows hwords hends
  simp only [Expr.words, List.append_assoc, List.cons_append, tokens_of_keyword, tokens_of_name,
    tokens_of_symbol, List.map_eq_append_iff] at hwords
  obtain ⟨q, _, rfl, _, _, rfl, _, _, rfl, ts₁, _, rfl, hwords₁, u, _, rfl, ts₂, _, rfl, hwords₂,
    ts₃, _, rfl, hwords₃, v, ts₄, rfl, hwords₄⟩ := hwords
  -- from the last part to the first, since each one is closed by what comes after it
  rw [← List.map_eq_append_iff] at hwords₄
  obtain ⟨b', hb, hread⟩ :=
    printed_body hbody (Expr.isBlock_of_swallows hswallows rfl) hwords₄ hends
  obtain ⟨by', hby, hby', hcloses⟩ := printed_step hstep hwords₃
  obtain ⟨stop', hstop', hread₂⟩ := hstop.whole .closed 0 ts₂ _ hwords₂
    (ends_of_closes _ hcloses _ _)
  obtain ⟨start', hstart', hread₁⟩ := hstart.whole .closed 0 ts₁ (⟨.keyword .to_, u⟩ :: _) hwords₁
    (ends_of_closes (.keyword .to_) rfl _ _)
  refine ⟨.forTo var start' stop' by' b' q, ?_, ?_⟩
  · simp only [Expr.Alike, Expr.relocate, hstart', hstop', hby, hb]
  · simp only [List.cons_append, List.append_assoc]
    exact .forTo hread₁ hread₂ hby' hread

theorem printed_whileDo {condition : Expr} {b : Body} (hcondition : condition.Printed)
    (hbody : b.Printed) (p : Position) : (Expr.whileDo condition b p).Printed := by
  refine Expr.PrintedBare.printed_atom ?_ rfl
  intro f ts rest hswallows hwords hends
  simp only [Expr.words, List.append_assoc, List.cons_append, tokens_of_keyword,
    List.map_eq_append_iff] at hwords
  obtain ⟨q, _, rfl, ts₁, _, rfl, hwords₁, r, ts₂, rfl, hwords₂⟩ := hwords
  rw [← List.map_eq_append_iff] at hwords₂
  obtain ⟨b', hb, hread⟩ :=
    printed_body hbody (Expr.isBlock_of_swallows hswallows rfl) hwords₂ hends
  obtain ⟨condition', hcondition', hread₁⟩ := hcondition.whole .closed 0 ts₁
    (⟨.keyword .then_, r⟩ :: (ts₂ ++ rest)) hwords₁ (ends_of_closes (.keyword .then_) rfl _ _)
  refine ⟨.whileDo condition' b' q, ?_, ?_⟩
  · simp only [Expr.Alike, Expr.relocate, hcondition', hb]
  · simp only [List.cons_append, List.append_assoc]
    exact .whileDo hread₁ hread

/-! ### Functions -/

/-- Parameters with commas between them, and the parenthesis that closes them. -/
theorem printed_params {name : String} {names : List String} {ts rest : List Located} {q : Position}
    (hwords : ts.map Located.word = paramWords (name :: names)) :
    Listed IsName .rparen (name :: names) (ts ++ ⟨.symbol .rparen, q⟩ :: rest) rest := by
  induction names generalizing name ts with
  | nil =>
    obtain ⟨p, _, rfl, hnil⟩ := tokens_of_name.mp hwords
    obtain rfl := List.map_eq_nil_iff.mp hnil
    exact .last ⟨p, rfl⟩
  | cons other names ih =>
    obtain ⟨p, _, rfl, hcomma⟩ := tokens_of_name.mp hwords
    obtain ⟨r, ts', rfl, hwords'⟩ := tokens_of_symbol.mp hcomma
    exact .more ⟨p, rfl⟩ (ih hwords')

theorem printed_signature {name : Option String} {params : List String} {ts rest : List Located}
    {q : Position} (hwords : ts.map Located.word =
      (name.map Word.name).toList ++ .symbol .lparen :: paramWords params) :
    Reads (.signature name params) (ts ++ ⟨.symbol .rparen, q⟩ :: rest) rest := by
  -- without a name first; a name is one more token before it
  have hparams {ts : List Located}
      (h : ts.map Located.word = .symbol .lparen :: paramWords params) :
      Reads (.signature none params) (ts ++ ⟨.symbol .rparen, q⟩ :: rest) rest := by
    obtain ⟨p, ts', rfl, hwords'⟩ := tokens_of_symbol.mp h
    cases params with
    | nil =>
      obtain rfl := List.map_eq_nil_iff.mp hwords'
      exact .noParams
    | cons name names => exact .params (printed_params hwords')
  cases name with
  | none => exact hparams hwords
  | some name =>
    obtain ⟨p, ts', rfl, hwords'⟩ := tokens_of_name.mp hwords
    exact .named (hparams hwords')

theorem printed_function {b : Body} (hbody : b.Printed) (name : Option String)
    (params : List String) (p : Position) : (Expr.function name params b p).Printed := by
  refine Expr.PrintedBare.printed_atom ?_ rfl
  intro f ts rest hswallows hwords hends
  simp only [Expr.words, List.append_assoc, List.cons_append, tokens_of_keyword] at hwords
  obtain ⟨q, _, rfl, hwords⟩ := hwords
  rw [← List.cons_append, ← List.append_assoc] at hwords
  obtain ⟨ts₁, _, rfl, hwords₁, hafter⟩ := List.map_eq_append_iff.mp hwords
  obtain ⟨r, ts₂, rfl, hwords₂⟩ := tokens_of_symbol.mp hafter
  obtain ⟨b', hb, hread⟩ :=
    printed_functionBody hbody (Expr.isBlock_of_swallows hswallows rfl) hwords₂ hends
  refine ⟨.function name params b' q, ?_, ?_⟩
  · simp only [Expr.Alike, Expr.relocate, hb]
  · simp only [List.cons_append, List.append_assoc]
    exact .function (printed_signature hwords₁) hread

/-! ### Conditionals -/

/-- `ELIF` and `ELSE` end every expression that does not take them as its own. -/
theorem ends_branch (token : Token) (h : token = .keyword .elif ∨ token = .keyword .else_) :
    Ends .branch 0 token := by
  have hstops : Stops 0 token := by
    intro t _
    obtain rfl | rfl := h <;> cases t <;> rfl
  exact ⟨hstops, fun _ => hstops, nofun⟩

/-- The parts of the branches are texts of what they are, wherever they stand. -/
def Chain.Printed : Chain → Prop
  | done => True
  | otherwise b => b.Printed
  | elif condition b rest => condition.Printed ∧ b.Printed ∧ rest.Printed

section conditionals

variable {condition : Expr} {b : Body} {f : Follow} {ts rest : List Located}

/-- The condition of a case and its `THEN`. -/
theorem printed_condition (h : condition.Printed) (hwords : ts.map Located.word =
      place .needed .closed 0 condition (fun g => condition.words .needed g))
    (p : Position) (rest : List Located) :
    ∃ condition' : Expr, condition'.Alike condition ∧
      Reads (.expression condition') (ts ++ ⟨.keyword .then_, p⟩ :: rest)
        (⟨.keyword .then_, p⟩ :: rest) :=
  h.whole .closed 0 ts _ hwords (ends_of_closes (.keyword .then_) rfl _ _)

/-- The last case of a conditional. -/
theorem printed_lastCase (hcondition : condition.Printed) (hbody : b.Printed)
    (hblock : f ≠ .closed → b.isBlock = true)
    (hwords : ts.map Located.word =
      place .needed .closed 0 condition (fun g => condition.words .needed g) ++
        .keyword .then_ :: (b.words .needed f ++ b.ending)) (hends : Ends f 9 (next rest)) :
    ∃ condition' b', condition'.Alike condition ∧ b'.Alike b ∧
      Reads (.case condition' b' .done) (ts ++ rest) rest := by
  obtain ⟨ts₁, _, rfl, hwords₁, hthen⟩ := List.map_eq_append_iff.mp hwords
  obtain ⟨p, ts₂, rfl, hwords₂⟩ := tokens_of_keyword.mp hthen
  have hoperator : f = .operator → b.isBlock = true := fun hf => hblock (by rw [hf]; nofun)
  obtain ⟨b', hb, hread⟩ := printed_body hbody hoperator hwords₂ hends
  obtain ⟨condition', hcondition', hread₁⟩ :=
    printed_condition hcondition hwords₁ p (ts₂ ++ rest)
  refine ⟨condition', b', hcondition', hb, ?_⟩
  rw [List.append_assoc, List.cons_append]
  -- what was read of the body says which of the two kinds of case this is
  generalize ts₂ ++ rest = all at hread hread₁ ⊢
  cases hread with
  | inline he =>
    -- nothing is announced after it, so no branch follows
    have hf : f = .closed := by
      by_contra hne
      cases b with
      | inline e => cases hblock hne
      | block e => cases hb
    obtain ⟨hnoElif, hnoElse⟩ := hends.single hf
    exact .inlineCase hread₁ he (.done hnoElif hnoElse)
  | block he => exact .lastBlock hread₁ he

/-- A case before a further branch. -/
theorem printed_case (hcondition : condition.Printed) (hbody : b.Printed) {chain : Chain}
    (hwords : ts.map Located.word =
      place .needed .closed 0 condition (fun g => condition.words .needed g) ++
        .keyword .then_ :: b.words .needed .branch)
    {mid : List Located} (hchain : Reads (.after chain) mid rest) (hmore : chain ≠ .done) :
    ∃ condition' b', condition'.Alike condition ∧ b'.Alike b ∧
      Reads (.case condition' b' chain) (ts ++ mid) rest := by
  obtain ⟨ts₁, _, rfl, hwords₁, hthen⟩ := List.map_eq_append_iff.mp hwords
  obtain ⟨p, ts₂, rfl, hwords₂⟩ := tokens_of_keyword.mp hthen
  have hnext : next mid = .keyword .elif ∨ next mid = .keyword .else_ := next_of_after hmore hchain
  obtain ⟨condition', hcondition', hread₁⟩ := printed_condition hcondition hwords₁ p (ts₂ ++ mid)
  rw [List.append_assoc, List.cons_append]
  -- a block has no `END` here: the further branch ends it
  cases b with
  | inline e =>
    obtain ⟨e', halike, hread⟩ := hbody.whole .branch 0 ts₂ mid hwords₂ (ends_branch _ hnext)
    refine ⟨condition', .inline e', hcondition', ?_, .inlineCase hread₁ hread hchain⟩
    simp only [Body.Alike, Body.relocate, halike]
  | block e =>
    obtain ⟨q, ts₃, rfl, hwords₃⟩ := tokens_of_newline.mp hwords₂
    have hnewline : next mid ≠ .newline := by
      obtain hnext | hnext := hnext <;> rw [hnext] <;> nofun
    have hlast : (next mid).opensExpression = false := by
      obtain hnext | hnext := hnext <;> rw [hnext] <;> rfl
    obtain ⟨e', halike, hread⟩ := printed_block hbody hwords₃ hnewline hlast
    refine ⟨condition', .block e', hcondition', ?_, .blockCase hread₁ hread hmore hchain⟩
    simp only [Body.Alike, Body.relocate, halike]

end conditionals

/-- All cases of a conditional. The induction is on the branches after the first case. -/
theorem printed_cases (chain : Chain) (hchain : chain.Printed) {condition : Expr} {b : Body}
    (hcondition : condition.Printed) (hbody : b.Printed) {f : Follow} {ts rest : List Located}
    (hopen : f = .operator → chain.isOpen b = false)
    (htakes : f = .branch → chain.takesBranch b = false)
    (hwords : ts.map Located.word =
      place .needed .closed 0 condition (fun g => condition.words .needed g) ++
        .keyword .then_ :: (b.words .needed (chain.follow f) ++ chain.words .needed f b.ending))
    (hends : Ends f 9 (next rest)) :
    ∃ condition' b' chain', condition'.Alike condition ∧ b'.Alike b ∧ chain'.Alike chain ∧
      Reads (.case condition' b' chain') (ts ++ rest) rest := by
  match chain with
  | .done =>
    -- the conditional ends with this body, so it is open unless the body is a block
    have hblock : f ≠ .closed → b.isBlock = true := by
      intro hf
      cases f with
      | closed => exact absurd rfl hf
      | branch => simpa [Chain.takesBranch] using htakes rfl
      | operator => simpa [Chain.isOpen] using hopen rfl
    obtain ⟨condition', b', hcondition', hb, hread⟩ :=
      printed_lastCase hcondition hbody hblock hwords hends
    exact ⟨condition', b', .done, hcondition', hb, rfl, hread⟩
  | .otherwise last =>
    rw [← List.cons_append, ← List.append_assoc] at hwords
    obtain ⟨ts₁, _, rfl, hwords₁, hafter⟩ := List.map_eq_append_iff.mp hwords
    obtain ⟨p, ts₂, rfl, hwords₂⟩ := tokens_of_keyword.mp hafter
    -- after an `ELSE` no branch is taken; an operator still is, unless the body is a block
    have hblock : f = .operator → last.isBlock = true := by
      intro hf
      simpa [Chain.isOpen] using hopen hf
    obtain ⟨last', hlast, hread⟩ := printed_body hchain hblock hwords₂ hends
    have hotherwise : Reads (.after (.otherwise last')) (⟨.keyword .else_, p⟩ :: (ts₂ ++ rest))
        rest := .otherwise hread
    obtain ⟨condition', b', hcondition', hb, hcase⟩ :=
      printed_case hcondition hbody hwords₁ hotherwise nofun
    refine ⟨condition', b', .otherwise last', hcondition', hb, ?_, ?_⟩
    · simp only [Chain.Alike, Chain.relocate, hlast]
    · rwa [List.append_assoc]
  | .elif condition₂ b₂ chain₂ =>
    rw [← List.cons_append, ← List.append_assoc] at hwords
    obtain ⟨ts₁, _, rfl, hwords₁, hafter⟩ := List.map_eq_append_iff.mp hwords
    simp only [Chain.words, List.append_assoc, List.cons_append, tokens_of_keyword] at hafter
    obtain ⟨p, ts₂, rfl, hwords₂⟩ := hafter
    obtain ⟨hcondition₂, hb₂, hchain₂⟩ := hchain
    -- whether the conditional is open is decided by the branches after this one
    obtain ⟨condition₂', b₂', chain₂', hc, hb', hchain', hread⟩ :=
      printed_cases chain₂ hchain₂ hcondition₂ hb₂ hopen htakes hwords₂ hends
    have helif : Reads (.after (.elif condition₂' b₂' chain₂'))
        (⟨.keyword .elif, p⟩ :: (ts₂ ++ rest)) rest := .elif hread
    obtain ⟨condition', b', hcondition', hb, hcase⟩ :=
      printed_case hcondition hbody hwords₁ helif nofun
    refine ⟨condition', b', .elif condition₂' b₂' chain₂', hcondition', hb, ?_, ?_⟩
    · simp only [Chain.Alike, Chain.relocate, hc, hb', hchain']
    · rwa [List.append_assoc]
termination_by structural chain

theorem printed_ifThen {condition : Expr} {b : Body} {chain : Chain}
    (hcondition : condition.Printed) (hbody : b.Printed) (hchain : chain.Printed) (p : Position) :
    (Expr.ifThen condition b chain p).Printed := by
  refine Expr.PrintedBare.printed_atom ?_ rfl
  intro f ts rest hswallows hwords hends
  simp only [Expr.words, List.append_assoc, List.cons_append, tokens_of_keyword] at hwords
  obtain ⟨q, ts', rfl, hwords'⟩ := hwords
  have hopen : f = .operator → chain.isOpen b = false := by
    rintro rfl
    exact hswallows
  have htakes : f = .branch → chain.takesBranch b = false := by
    rintro rfl
    exact hswallows
  obtain ⟨condition', b', chain', hcondition', hb, hchain', hread⟩ :=
    printed_cases chain hchain hcondition hbody hopen htakes hwords' hends
  refine ⟨.ifThen condition' b' chain' q, ?_, .conditional hread⟩
  simp only [Expr.Alike, Expr.relocate, hcondition', hb, hchain']

/-! ### All expressions -/

mutual

/-- **Printing.** A well-formed expression that is printed with the parentheses it needs is a text
of the same expression, wherever it stands. -/
theorem Expr.WellFormed.printed (e : Expr) (h : e.WellFormed) : e.Printed := by
  match e with
  | .number value p => exact printed_number value p
  | .text value p => exact printed_text value p
  | .list es p => exact printed_list (Expr.AllWellFormed.printed es h) p
  | .name name p => exact printed_name name p
  | .assign name value p => exact printed_assign (Expr.WellFormed.printed value h.2) name p
  | .binary op left right p =>
    exact printed_binary (Expr.WellFormed.printed left h.1) (Expr.WellFormed.printed right h.2)
  | .unary op operand p => exact printed_unary (Expr.WellFormed.printed operand h) op p
  | .ifThen condition b rest p =>
    exact printed_ifThen (Expr.WellFormed.printed condition h.1) (Body.WellFormed.printed b h.2.1)
      (Chain.WellFormed.printed rest h.2.2) p
  | .forTo var start stop by_ b p =>
    obtain ⟨_, hstart, hstop, hby, hb⟩ := h
    exact printed_forTo (Expr.WellFormed.printed start hstart) (Expr.WellFormed.printed stop hstop)
      (Expr.StepWellFormed.printed by_ hby) (Body.WellFormed.printed b hb) var p
  | .whileDo condition b p =>
    exact printed_whileDo (Expr.WellFormed.printed condition h.1) (Body.WellFormed.printed b h.2) p
  | .function name params b p =>
    exact printed_function (Body.WellFormed.printed b h.2.2) name params p
  | .call callee arguments p =>
    exact printed_call (Expr.WellFormed.printed callee h.1)
      (Expr.AllWellFormed.printed arguments h.2) p
termination_by structural e

theorem Expr.AllWellFormed.printed (es : List Expr) (h : Expr.AllWellFormed es) :
    ∀ e ∈ es, e.Printed := by
  match es with
  | [] => nofun
  | e :: es =>
    exact List.forall_mem_cons.mpr
      ⟨Expr.WellFormed.printed e h.1, Expr.AllWellFormed.printed es h.2⟩
termination_by structural es

theorem Expr.StepWellFormed.printed (by_ : Option Expr) (h : Expr.StepWellFormed by_) :
    ∀ e ∈ by_, e.Printed := by
  match by_ with
  | none => nofun
  | some e =>
    rintro _ ⟨⟩
    exact Expr.WellFormed.printed e h
termination_by structural by_

theorem Expr.IsBlock.printed (e : Expr) (h : e.IsBlock) : (Body.block e).Printed := by
  match e with
  | .list [] p => exact absurd rfl h.1
  | .list (s :: ss) p => exact ⟨s, ss, p, rfl, Expr.AllWellFormed.printed (s :: ss) h.2⟩
termination_by structural e

theorem Body.WellFormed.printed (b : Body) (h : b.WellFormed) : b.Printed := by
  match b with
  | .inline e => exact Expr.WellFormed.printed e h
  | .block e => exact Expr.IsBlock.printed e h
termination_by structural b

theorem Chain.WellFormed.printed (chain : Chain) (h : chain.WellFormed) : chain.Printed := by
  match chain with
  | .done => trivial
  | .otherwise b => exact Body.WellFormed.printed b h
  | .elif condition b rest =>
    exact ⟨Expr.WellFormed.printed condition h.1, Body.WellFormed.printed b h.2.1,
      Chain.WellFormed.printed rest h.2.2⟩
termination_by structural chain

end

end LineScript
