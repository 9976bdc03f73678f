import LineScript.Proofs.Grammar.Printing
import LineScript.Proofs.Lexer.Writing
import LineScript.Proofs.Number.ReadBack

/-!
# Trees with all their parentheses

A tree that is written with parentheses around every operator, construct and definition is read back
without any rule of precedence: every operand is an atom or a call, and what comes after it is a
closing parenthesis, a comma, a keyword or the one operator of its node.

  * `Parens.full` puts every compound expression in parentheses, wherever it stands.
  * `Expr.Printable` is the class of trees that can be written on one line and read back.
  * `Expr.ReadsBack`: the words of a tree with all its parentheses are a text of it, whatever comes
    after them.

**Calls of calls.** The arguments of a call are read once: in `f(1)(2)` the second pair of
parentheses is no call. So the callee of a call must not be a call itself, and a call is the only
operand that is no atom.
-/

namespace LineScript

open Grammar

/-! ### All parentheses -/

/-- Whether an expression is put in parentheses: operators, constructs and definitions are. -/
def Expr.isCompound : Expr → Bool
  | number .. | text .. | list .. | name .. | call .. => false
  | _ => true

/-- Whether an expression is a call. -/
def Expr.isCall : Expr → Bool
  | call .. => true
  | _ => false

/-- Parentheses around every compound expression. -/
def Parens.full : Parens := fun _ _ e => e.isCompound

/-- The words of an expression with all parentheses, its own included. -/
def Expr.fullWords (e : Expr) : List Word :=
  place .full .closed 0 e (e.words .full ·)

/-- With all parentheses, it does not matter where an operand stands. -/
theorem place_full (f : Follow) (least : Nat) (e : Expr) :
    place .full f least e (e.words .full ·) = e.fullWords := by
  cases e <;> rfl

/-- The words of a compound expression. -/
theorem Expr.fullWords_of_isCompound {e : Expr} (h : e.isCompound) :
    e.fullWords = .symbol .lparen :: e.words .full .closed ++ [.symbol .rparen] :=
  if_pos h

/-- The words of any other expression. -/
theorem Expr.fullWords_of_not_isCompound {e : Expr} (h : e.isCompound = false) :
    e.fullWords = e.words .full .closed := by
  unfold Expr.fullWords place Parens.full
  rw [h]
  rfl

/-! ### The class of trees -/

mutual

/-- Names are identifiers, numbers are finite and have no sign, strings hold only characters that
stand for themselves, bodies are on the same line, and no callee is a call. -/
def Expr.Printable : Expr → Prop
  | .number value _ => Number.Unsigned value
  | .text value _ => ∀ c ∈ value.toList, Text.Plain c
  | .list es _ => Expr.AllPrintable es
  | .name name _ => IsIdentifier name
  | .assign name value _ => IsIdentifier name ∧ value.Printable
  | .binary _ left right _ => left.Printable ∧ right.Printable
  | .unary _ operand _ => operand.Printable
  | .ifThen condition b rest _ => condition.Printable ∧ b.Printable ∧ rest.Printable
  | .forTo var start stop by_ b _ =>
    IsIdentifier var ∧ start.Printable ∧ stop.Printable ∧ Expr.StepPrintable by_ ∧ b.Printable
  | .whileDo condition b _ => condition.Printable ∧ b.Printable
  | .function name params b _ =>
    (∀ text ∈ name, IsIdentifier text) ∧ (∀ text ∈ params, IsIdentifier text) ∧ b.Printable
  | .call callee arguments _ =>
    callee.isCall = false ∧ callee.Printable ∧ Expr.AllPrintable arguments
termination_by structural e => e

/-- Every one of the expressions is in the class. -/
def Expr.AllPrintable : List Expr → Prop
  | [] => True
  | e :: es => e.Printable ∧ Expr.AllPrintable es
termination_by structural es => es

/-- The step of a loop is in the class, if there is one. -/
def Expr.StepPrintable : Option Expr → Prop
  | none => True
  | some e => e.Printable
termination_by structural e => e

/-- An expression on the same line. -/
def Body.Printable : Body → Prop
  | .inline e => e.Printable
  | .block _ => False
termination_by structural b => b

/-- All further branches are in the class. -/
def Chain.Printable : Chain → Prop
  | .done => True
  | .otherwise b => b.Printable
  | .elif condition b rest => condition.Printable ∧ b.Printable ∧ rest.Printable
termination_by structural chain => chain

end

/-! ### Reading back -/

/-- How tight an expression is with its parentheses. -/
def Expr.fullRank (e : Expr) : Nat :=
  if e.isCall then 8 else 9

/-- The words of the expression with all parentheses are a text of it, whatever follows. -/
def Expr.ReadsBack (e : Expr) : Prop :=
  ∀ ts rest, ts.map Located.word = e.fullWords →
    ∃ e' : Expr, e'.Alike e ∧ Reads (.ranked e.fullRank e') (ts ++ rest) rest

/-- The body is on the same line and is read back. -/
def Body.ReadsBack : Body → Prop
  | inline e => e.ReadsBack
  | block _ => False

/-- The parts of the branches are read back. -/
def Chain.ReadsBack : Chain → Prop
  | done => True
  | otherwise b => b.ReadsBack
  | elif condition b rest => condition.ReadsBack ∧ b.ReadsBack ∧ rest.ReadsBack

section places

variable {e : Expr} {ts : List Located}

/-- In every place but that of a callee, before a token that ends the place. -/
theorem Expr.ReadsBack.inPlace (h : e.ReadsBack) {least : Nat} (hle : least ≤ 8)
    (hwords : ts.map Located.word = e.fullWords) (rest : List Located)
    (hstops : Stops least (next rest)) :
    ∃ e' : Expr, e'.Alike e ∧ Reads (.ranked least e') (ts ++ rest) rest := by
  obtain ⟨e', halike, hread⟩ := h ts rest hwords
  have hrank : least ≤ e.fullRank := by
    unfold Expr.fullRank
    split <;> omega
  exact ⟨e', halike, hread.ranked_of_le hrank hstops⟩

/-- Before a token that closes the place. -/
theorem Expr.ReadsBack.closed (h : e.ReadsBack) (hwords : ts.map Located.word = e.fullWords)
    (rest : List Located) (hcloses : (next rest).closes) :
    ∃ e' : Expr, e'.Alike e ∧ Reads (.expression e') (ts ++ rest) rest :=
  h.inPlace (Nat.zero_le 8) hwords rest (ends_of_closes _ hcloses .closed 0).stops

/-- As a callee, if it is no call. -/
theorem Expr.ReadsBack.atom (h : e.ReadsBack) (hcall : e.isCall = false)
    (hwords : ts.map Located.word = e.fullWords) (rest : List Located) :
    ∃ e' : Expr, e'.Alike e ∧ Reads (.tier .atom e') (ts ++ rest) rest := by
  obtain ⟨e', halike, hread⟩ := h ts rest hwords
  unfold Expr.fullRank at hread
  rw [hcall] at hread
  exact ⟨e', halike, hread⟩

end places

/-- A compound expression is read back from what its parentheses hold. -/
theorem Expr.readsBack_of_inner {e : Expr} (hcompound : e.isCompound)
    (h : ∀ ts rest, ts.map Located.word = e.words .full .closed → (next rest).closes →
      ∃ e' : Expr, e'.Alike e ∧ Reads (.expression e') (ts ++ rest) rest) : e.ReadsBack := by
  intro ts rest hwords
  rw [Expr.fullWords_of_isCompound hcompound] at hwords
  simp only [List.cons_append, tokens_of_symbol, List.map_eq_append_iff, List.map_eq_nil_iff]
    at hwords
  obtain ⟨p, _, rfl, inner, _, rfl, hinner, q, _, rfl, rfl⟩ := hwords
  obtain ⟨e', halike, hread⟩ := h inner (⟨.symbol .rparen, q⟩ :: rest) hinner rfl
  have hcall : e.fullRank = 9 := by
    cases e <;> first | rfl | cases hcompound
  refine ⟨e', halike, ?_⟩
  rw [hcall, List.cons_append, List.append_assoc]
  exact .grouping hread

/-- A construct is an atom of its own. -/
theorem Reads.expression_of_atom {e : Expr} {ts rest : List Located}
    (h : Reads (.tier .atom e) ts rest) (hcloses : (next rest).closes) :
    Reads (.expression e) ts rest :=
  h.ranked_of_atom (ends_of_closes _ hcloses .closed 0).stops

/-! ### Names, literals and operators -/

theorem readsBack_number (value : Float) (p : Position) : (Expr.number value p).ReadsBack := by
  intro ts rest hwords
  obtain ⟨⟨token, q⟩, rfl, hword⟩ := List.map_eq_singleton_iff.mp hwords
  exact ⟨.number value q, rfl, .number (Located.number_of_word hword)⟩

theorem readsBack_text (value : String) (p : Position) : (Expr.text value p).ReadsBack := by
  intro ts rest hwords
  obtain ⟨q, _, rfl, hnil⟩ := (map_word_eq_cons_iff rfl).mp hwords
  obtain rfl := List.map_eq_nil_iff.mp hnil
  exact ⟨.text value q, rfl, .text⟩

theorem readsBack_name (name : String) (p : Position) : (Expr.name name p).ReadsBack := by
  intro ts rest hwords
  obtain ⟨q, _, rfl, hnil⟩ := tokens_of_name.mp hwords
  obtain rfl := List.map_eq_nil_iff.mp hnil
  exact ⟨.name name q, rfl, .name⟩

theorem readsBack_assign {value : Expr} (h : value.ReadsBack) (name : String) (p : Position) :
    (Expr.assign name value p).ReadsBack := by
  apply Expr.readsBack_of_inner rfl
  intro ts rest hwords hcloses
  simp only [Expr.words, place_full, tokens_of_keyword, tokens_of_name, tokens_of_symbol] at hwords
  obtain ⟨q, _, rfl, _, _, rfl, _, ts', rfl, hwords'⟩ := hwords
  obtain ⟨value', halike, hread⟩ := h.closed hwords' rest hcloses
  refine ⟨.assign name value' q, ?_, .assign hread⟩
  simp only [Expr.Alike, Expr.relocate, halike]

/-- The place of the right operand is the phrase of its tier. -/
theorem BinaryOperator.ranked_operand (op : BinaryOperator) (e : Expr) :
    Phrase.ranked op.rightRank e = .tier op.tier.operand e := by
  cases op <;> rfl

theorem readsBack_binary {left right : Expr} (hleft : left.ReadsBack) (hright : right.ReadsBack)
    (op : BinaryOperator) (p : Position) : (Expr.binary op left right p).ReadsBack := by
  apply Expr.readsBack_of_inner rfl
  intro ts rest hwords hcloses
  have hends := ends_of_closes _ hcloses .closed
  simp only [Expr.words, place_full, List.map_eq_append_iff, tokens_of_symbol] at hwords
  obtain ⟨ts₁, _, rfl, hwords₁, q, ts₂, rfl, hwords₂⟩ := hwords
  -- the left operand ends at the operator, whatever its own tier is
  have hstops : Stops (op.tier.rank + 1) (.symbol op.symbol) := op.rank_tier ▸ op.stops_symbol
  have hbelow : op.tier.rank + 1 ≤ 8 := by cases op <;> decide
  obtain ⟨left', hleft', hfirst⟩ :=
    hleft.inPlace hbelow hwords₁ (⟨.symbol op.symbol, q⟩ :: (ts₂ ++ rest)) hstops
  rw [Tier.ranked_below] at hfirst
  have hle : op.rightRank ≤ 8 := by cases op <;> decide
  obtain ⟨right', hright', hsecond⟩ := hright.inPlace hle hwords₂ rest (hends _).stops
  rw [op.ranked_operand] at hsecond
  refine ⟨.binary op left' right' left'.position, ?_, ?_⟩
  · simp only [Expr.Alike, Expr.relocate, hleft', hright']
  · have hstop : op.tier.continues (next rest) = false := (hends 0).stops op.tier (Nat.zero_le _)
    have htier : op.tier ≠ .atom := by cases op <;> nofun
    have hread : Reads (.tier op.tier (.binary op left' right' left'.position))
        (ts₁ ++ ⟨.symbol op.symbol, q⟩ :: (ts₂ ++ rest)) rest :=
      .operators htier hfirst (.link op.accepts_tier hsecond (.stop hstop))
    rw [← op.ranked_tier] at hread
    rw [List.append_assoc, List.cons_append]
    exact hread.ranked_of_le (Nat.zero_le _) (hends 0).stops

theorem readsBack_unary {operand : Expr} (h : operand.ReadsBack) (op : UnaryOperator)
    (p : Position) : (Expr.unary op operand p).ReadsBack := by
  apply Expr.readsBack_of_inner rfl
  intro ts rest hwords hcloses
  have hends := ends_of_closes _ hcloses .closed
  have htier (e : Expr) : Phrase.ranked op.rank e = .tier op.tier e := by cases op <;> rfl
  have hle : op.rank ≤ 8 := by cases op <;> decide
  simp only [Expr.words, place_full, tokens_of_symbol] at hwords
  obtain ⟨q, ts', rfl, hwords'⟩ := hwords
  obtain ⟨operand', halike, hread⟩ := h.inPlace hle hwords' rest (hends op.rank).stops
  rw [htier] at hread
  refine ⟨.unary op operand' q, ?_, ?_⟩
  · simp only [Expr.Alike, Expr.relocate, halike]
  · have hunary : Reads (.tier op.tier (.unary op operand' q))
        (⟨.symbol op.symbol, q⟩ :: (ts' ++ rest)) rest := .unary hread
    rw [← htier] at hunary
    exact hunary.ranked_of_le (Nat.zero_le _) (hends 0).stops

/-! ### Lists and calls -/

/-- Several expressions with commas between them, and the symbol that closes them. -/
theorem readsBack_items (closing : Symbol) (hclosing : (Token.symbol closing).closes) {e : Expr}
    {es : List Expr} (h : ∀ a ∈ e :: es, a.ReadsBack) {ts rest : List Located} {q : Position}
    (hwords : ts.map Located.word = Expr.wordsJoined .full (.symbol .comma) (e :: es)) :
    ∃ es' : List Expr, Expr.AllAlike es' (e :: es) ∧
      Reads (.items closing es') (ts ++ ⟨.symbol closing, q⟩ :: rest) rest := by
  -- each expression is closed by a comma, the last one by the closing symbol
  induction es generalizing e ts with
  | nil =>
    simp only [Expr.wordsJoined, place_full] at hwords
    obtain ⟨e', halike, hread⟩ :=
      (h e List.mem_cons_self).closed hwords (⟨.symbol closing, q⟩ :: rest) hclosing
    refine ⟨[e'], ?_, .last hread⟩
    simp only [Expr.AllAlike, Expr.relocateAll, halike]
  | cons a es ih =>
    simp only [Expr.wordsJoined, place_full, List.map_eq_append_iff, tokens_of_symbol] at hwords
    obtain ⟨ts₁, _, rfl, hwords₁, r, ts₂, rfl, hwords₂⟩ := hwords
    obtain ⟨e', halike, hread⟩ := (h e List.mem_cons_self).closed hwords₁
      (⟨.symbol .comma, r⟩ :: (ts₂ ++ ⟨.symbol closing, q⟩ :: rest)) rfl
    obtain ⟨es', hes, hreads⟩ := ih (fun b hb => h b (List.mem_cons_of_mem _ hb)) hwords₂
    refine ⟨e' :: es', ?_, ?_⟩
    · rw [Expr.AllAlike, Expr.relocateAll, halike, hes, Expr.relocateAll.eq_2 _ e]
    · rw [List.append_assoc, List.cons_append]
      exact .more hread hreads

theorem readsBack_separated (closing : Symbol) (hclosing : (Token.symbol closing).closes)
    {es : List Expr} (h : ∀ a ∈ es, a.ReadsBack) {ts rest : List Located} {q : Position}
    (hwords : ts.map Located.word = Expr.wordsJoined .full (.symbol .comma) es) :
    ∃ es' : List Expr, Expr.AllAlike es' es ∧
      Reads (.separated closing es') (ts ++ ⟨.symbol closing, q⟩ :: rest) rest := by
  cases es with
  | nil =>
    obtain rfl := List.map_eq_nil_iff.mp hwords
    exact ⟨[], rfl, .noItems⟩
  | cons e es =>
    obtain ⟨es', hes, hreads⟩ := readsBack_items closing hclosing h hwords
    exact ⟨es', hes, .items hreads⟩

theorem readsBack_list {es : List Expr} (h : ∀ a ∈ es, a.ReadsBack) (p : Position) :
    (Expr.list es p).ReadsBack := by
  intro ts rest hwords
  rw [Expr.fullWords_of_not_isCompound rfl] at hwords
  simp only [Expr.words, List.cons_append, tokens_of_symbol, List.map_eq_append_iff,
    List.map_eq_nil_iff] at hwords
  obtain ⟨q, _, rfl, inner, _, rfl, hinner, r, _, rfl, rfl⟩ := hwords
  obtain ⟨es', halike, hread⟩ := readsBack_separated .rbracket rfl h hinner
  refine ⟨.list es' q, ?_, ?_⟩
  · simp only [Expr.Alike, Expr.relocate, halike]
  · rw [List.cons_append, List.append_assoc]
    exact .list hread

theorem readsBack_call {callee : Expr} {arguments : List Expr} (hcall : callee.isCall = false)
    (hcallee : callee.ReadsBack) (harguments : ∀ a ∈ arguments, a.ReadsBack) (p : Position) :
    (Expr.call callee arguments p).ReadsBack := by
  intro ts rest hwords
  rw [Expr.fullWords_of_not_isCompound rfl] at hwords
  simp only [Expr.words, place_full, List.append_assoc, List.cons_append, List.map_eq_append_iff,
    tokens_of_symbol, List.map_eq_nil_iff] at hwords
  obtain ⟨ts₁, _, rfl, hwords₁, q, _, rfl, inner, _, rfl, hinner, r, _, rfl, rfl⟩ := hwords
  obtain ⟨arguments', halike, hreads⟩ := readsBack_separated .rparen rfl harguments hinner
  obtain ⟨callee', hcallee', hread⟩ := hcallee.atom hcall hwords₁
    (⟨.symbol .lparen, q⟩ :: (inner ++ ⟨.symbol .rparen, r⟩ :: rest))
  refine ⟨.call callee' arguments' callee'.position, ?_, ?_⟩
  · simp only [Expr.Alike, Expr.relocate, hcallee', halike]
  · simp only [List.append_assoc, List.cons_append, List.nil_append]
    exact .call hread hreads

/-! ### Bodies, loops and functions -/

section bodies

variable {b : Body} {f : Follow} {ts : List Located}

/-- A body on the same line has no `END`. -/
theorem Body.ReadsBack.ending (h : b.ReadsBack) : b.ending = [] := by
  cases b with
  | inline e => rfl
  | block e => cases h

/-- A body on the same line, before a token that no expression goes on with. -/
theorem Body.ReadsBack.ended (h : b.ReadsBack) (hwords : ts.map Located.word = b.words .full f)
    (rest : List Located) (hstops : Stops 0 (next rest)) :
    ∃ e' : Expr, (Body.inline e').Alike b ∧ Reads (.expression e') (ts ++ rest) rest := by
  cases b with
  | block e => cases h
  | inline e =>
    rw [Body.words, place_full] at hwords
    obtain ⟨e', halike, hread⟩ := Expr.ReadsBack.inPlace h (Nat.zero_le 8) hwords rest hstops
    refine ⟨e', ?_, hread⟩
    simp only [Body.Alike, Body.relocate, halike]

/-- The body of a construct that ends with it. -/
theorem Body.ReadsBack.last (h : b.ReadsBack)
    (hwords : ts.map Located.word = b.words .full f ++ b.ending) (rest : List Located)
    (hcloses : (next rest).closes) :
    ∃ e' : Expr, (Body.inline e').Alike b ∧ Reads (.expression e') (ts ++ rest) rest := by
  rw [h.ending, List.append_nil] at hwords
  exact h.ended hwords rest (ends_of_closes _ hcloses .closed 0).stops

end bodies

/-- The step of a loop before the `THEN` of the loop. -/
theorem readsBack_step {by_ : Option Expr} (h : ∀ e ∈ by_, e.ReadsBack) {ts rest : List Located}
    {p : Position} (hwords : ts.map Located.word = Expr.stepWords .full by_) :
    ∃ by' : Option Expr,
      Expr.relocateStep (fun _ => .start) by' = Expr.relocateStep (fun _ => .start) by_ ∧
      Reads (.step by') (ts ++ ⟨.keyword .then_, p⟩ :: rest) (⟨.keyword .then_, p⟩ :: rest) ∧
      (next (ts ++ ⟨.keyword .then_, p⟩ :: rest)).closes := by
  cases by_ with
  | none =>
    obtain rfl := List.map_eq_nil_iff.mp hwords
    exact ⟨none, rfl, .noStep nofun, rfl⟩
  | some e =>
    rw [Expr.stepWords, place_full] at hwords
    obtain ⟨q, ts', rfl, hwords'⟩ := tokens_of_keyword.mp hwords
    obtain ⟨e', halike, hread⟩ := (h e rfl).closed hwords' (⟨.keyword .then_, p⟩ :: rest) rfl
    refine ⟨some e', ?_, .step hread, rfl⟩
    simp only [Expr.relocateStep, halike]

theorem readsBack_forTo {start stop : Expr} {by_ : Option Expr} {b : Body}
    (hstart : start.ReadsBack) (hstop : stop.ReadsBack) (hstep : ∀ e ∈ by_, e.ReadsBack)
    (hbody : b.ReadsBack) (var : String) (p : Position) :
    (Expr.forTo var start stop by_ b p).ReadsBack := by
  apply Expr.readsBack_of_inner rfl
  intro ts rest hwords hcloses
  simp only [Expr.words, place_full, List.append_assoc, List.cons_append, tokens_of_keyword,
    tokens_of_name, tokens_of_symbol, List.map_eq_append_iff] at hwords
  obtain ⟨q, _, rfl, _, _, rfl, _, _, rfl, ts₁, _, rfl, hwords₁, u, _, rfl, ts₂, _, rfl, hwords₂,
    ts₃, _, rfl, hwords₃, v, ts₄, rfl, hwords₄⟩ := hwords
  -- from the last part to the first, since each one is closed by what comes after it
  rw [← List.map_eq_append_iff] at hwords₄
  obtain ⟨e', hb, hread⟩ := hbody.last hwords₄ rest hcloses
  obtain ⟨by', hby, hby', hstepCloses⟩ := readsBack_step hstep hwords₃
  obtain ⟨stop', hstop', hread₂⟩ := hstop.closed hwords₂ _ hstepCloses
  obtain ⟨start', hstart', hread₁⟩ := hstart.closed hwords₁ (⟨.keyword .to_, u⟩ :: _) rfl
  refine ⟨.forTo var start' stop' by' (.inline e') q, ?_, ?_⟩
  · simp only [Expr.Alike, Expr.relocate, hstart', hstop', hby, hb]
  · simp only [List.cons_append, List.append_assoc]
    exact .expression_of_atom (.forTo hread₁ hread₂ hby' (.inline hread)) hcloses

theorem readsBack_whileDo {condition : Expr} {b : Body} (hcondition : condition.ReadsBack)
    (hbody : b.ReadsBack) (p : Position) : (Expr.whileDo condition b p).ReadsBack := by
  apply Expr.readsBack_of_inner rfl
  intro ts rest hwords hcloses
  simp only [Expr.words, place_full, List.append_assoc, List.cons_append, tokens_of_keyword,
    List.map_eq_append_iff] at hwords
  obtain ⟨q, _, rfl, ts₁, _, rfl, hwords₁, r, ts₂, rfl, hwords₂⟩ := hwords
  rw [← List.map_eq_append_iff] at hwords₂
  obtain ⟨e', hb, hread⟩ := hbody.last hwords₂ rest hcloses
  obtain ⟨condition', hcondition', hread₁⟩ :=
    hcondition.closed hwords₁ (⟨.keyword .then_, r⟩ :: (ts₂ ++ rest)) rfl
  refine ⟨.whileDo condition' (.inline e') q, ?_, ?_⟩
  · simp only [Expr.Alike, Expr.relocate, hcondition', hb]
  · simp only [List.cons_append, List.append_assoc]
    exact .expression_of_atom (.whileDo hread₁ (.inline hread)) hcloses

theorem readsBack_function {b : Body} (hbody : b.ReadsBack) (name : Option String)
    (params : List String) (p : Position) : (Expr.function name params b p).ReadsBack := by
  apply Expr.readsBack_of_inner rfl
  intro ts rest hwords hcloses
  simp only [Expr.words, List.append_assoc, List.cons_append, tokens_of_keyword] at hwords
  obtain ⟨q, _, rfl, hwords⟩ := hwords
  rw [← List.cons_append, ← List.append_assoc] at hwords
  obtain ⟨ts₁, _, rfl, hwords₁, hafter⟩ := List.map_eq_append_iff.mp hwords
  obtain ⟨r, ts₂, rfl, hwords₂⟩ := tokens_of_symbol.mp hafter
  -- a body on the same line has an arrow before it
  obtain ⟨e', hb, hread⟩ : ∃ e' : Expr, (Body.inline e').Alike b ∧
      Reads (.functionBody (.inline e')) (ts₂ ++ rest) rest := by
    cases b with
    | block e => cases hbody
    | inline e =>
      obtain ⟨_, ts', rfl, hwords'⟩ := tokens_of_symbol.mp hwords₂
      obtain ⟨e', hb, hread⟩ := hbody.last hwords' rest hcloses
      exact ⟨e', hb, .arrow hread⟩
  refine ⟨.function name params (.inline e') q, ?_, ?_⟩
  · simp only [Expr.Alike, Expr.relocate, hb]
  · simp only [List.cons_append, List.append_assoc]
    exact .expression_of_atom (.function (printed_signature hwords₁) hread) hcloses

/-! ### Conditionals -/

section conditionals

variable {condition : Expr} {b : Body} {f : Follow} {ts mid rest : List Located}

/-- A case before branches that are read already. -/
theorem readsBack_case (hcondition : condition.ReadsBack) (hbody : b.ReadsBack)
    (hwords : ts.map Located.word =
      condition.fullWords ++ .keyword .then_ :: b.words .full f) {chain : Chain}
    (hchain : Reads (.after chain) mid rest) (hstops : Stops 0 (next mid)) :
    ∃ condition' e', condition'.Alike condition ∧ (Body.inline e').Alike b ∧
      Reads (.case condition' (.inline e') chain) (ts ++ mid) rest := by
  obtain ⟨ts₁, _, rfl, hwords₁, hthen⟩ := List.map_eq_append_iff.mp hwords
  obtain ⟨p, ts₂, rfl, hwords₂⟩ := tokens_of_keyword.mp hthen
  obtain ⟨e', hb, hread⟩ := hbody.ended hwords₂ mid hstops
  obtain ⟨condition', hcondition', hread₁⟩ :=
    hcondition.closed hwords₁ (⟨.keyword .then_, p⟩ :: (ts₂ ++ mid)) rfl
  refine ⟨condition', e', hcondition', hb, ?_⟩
  rw [List.append_assoc, List.cons_append]
  exact .inlineCase hread₁ hread hchain

/-- The branches after a case, up to the end of the conditional. No expression goes on with what
they begin with, so the body before them ends there. -/
theorem readsBack_after (chain : Chain) (h : chain.ReadsBack) {ts : List Located}
    (hwords : ts.map Located.word = chain.words .full .closed []) (hcloses : (next rest).closes) :
    ∃ chain' : Chain, chain'.Alike chain ∧ Reads (.after chain') (ts ++ rest) rest ∧
      Stops 0 (next (ts ++ rest)) := by
  match chain with
  | .done =>
    obtain rfl := List.map_eq_nil_iff.mp hwords
    have hends := ends_of_closes _ hcloses .closed 0
    obtain ⟨hnoElif, hnoElse⟩ := hends.single rfl
    exact ⟨.done, rfl, .done hnoElif hnoElse, hends.stops⟩
  | .otherwise last =>
    obtain ⟨p, ts', rfl, hwords'⟩ := tokens_of_keyword.mp hwords
    obtain ⟨e', hlast, hread⟩ := Body.ReadsBack.last h hwords' rest hcloses
    refine ⟨.otherwise (.inline e'), ?_, .otherwise (.inline hread), ?_⟩
    · simp only [Chain.Alike, Chain.relocate, hlast]
    · exact (ends_branch (.keyword .else_) (.inr rfl)).stops
  | .elif condition b chain =>
    obtain ⟨hcondition, hbody, hchain⟩ := h
    rw [Chain.words, place_full, hbody.ending, List.cons_append, List.cons_append,
      List.append_assoc] at hwords
    obtain ⟨p, ts', rfl, hwords'⟩ := tokens_of_keyword.mp hwords
    rw [← List.append_assoc] at hwords'
    obtain ⟨ts₁, ts₂, rfl, hwords₁, hwords₂⟩ := List.map_eq_append_iff.mp hwords'
    obtain ⟨chain', hchain', hafter, hstops⟩ := readsBack_after chain hchain hwords₂ hcloses
    obtain ⟨condition', e', hcondition', hb, hread⟩ :=
      readsBack_case hcondition hbody hwords₁ hafter hstops
    refine ⟨.elif condition' (.inline e') chain', ?_, ?_, ?_⟩
    · simp only [Chain.Alike, Chain.relocate, hcondition', hb, hchain']
    · rw [List.cons_append, List.append_assoc]
      exact .elif hread
    · exact (ends_branch (.keyword .elif) (.inl rfl)).stops
termination_by structural chain

end conditionals

theorem readsBack_ifThen {condition : Expr} {b : Body} {chain : Chain}
    (hcondition : condition.ReadsBack) (hbody : b.ReadsBack) (hchain : chain.ReadsBack)
    (p : Position) : (Expr.ifThen condition b chain p).ReadsBack := by
  apply Expr.readsBack_of_inner rfl
  intro ts rest hwords hcloses
  rw [Expr.words, place_full, hbody.ending, List.cons_append, List.cons_append,
    List.append_assoc] at hwords
  obtain ⟨q, ts', rfl, hwords'⟩ := tokens_of_keyword.mp hwords
  rw [← List.append_assoc] at hwords'
  obtain ⟨ts₁, ts₂, rfl, hwords₁, hwords₂⟩ := List.map_eq_append_iff.mp hwords'
  obtain ⟨chain', hchain', hafter, hstops⟩ := readsBack_after chain hchain hwords₂ hcloses
  obtain ⟨condition', e', hcondition', hb, hread⟩ :=
    readsBack_case hcondition hbody hwords₁ hafter hstops
  refine ⟨.ifThen condition' (.inline e') chain' q, ?_, ?_⟩
  · simp only [Expr.Alike, Expr.relocate, hcondition', hb, hchain']
  · rw [List.cons_append, List.append_assoc]
    exact .expression_of_atom (.conditional hread) hcloses

/-! ### All trees -/

mutual

/-- A tree of the class is read back from its words. -/
theorem Expr.Printable.readsBack (e : Expr) (h : e.Printable) : e.ReadsBack := by
  match e with
  | .number value p => exact readsBack_number value p
  | .text value p => exact readsBack_text value p
  | .list es p => exact readsBack_list (Expr.AllPrintable.readsBack es h) p
  | .name name p => exact readsBack_name name p
  | .assign name value p => exact readsBack_assign (Expr.Printable.readsBack value h.2) name p
  | .binary op left right p =>
    exact readsBack_binary (Expr.Printable.readsBack left h.1)
      (Expr.Printable.readsBack right h.2) op p
  | .unary op operand p => exact readsBack_unary (Expr.Printable.readsBack operand h) op p
  | .ifThen condition b rest p =>
    exact readsBack_ifThen (Expr.Printable.readsBack condition h.1)
      (Body.Printable.readsBack b h.2.1) (Chain.Printable.readsBack rest h.2.2) p
  | .forTo var start stop by_ b p =>
    obtain ⟨_, hstart, hstop, hby, hb⟩ := h
    exact readsBack_forTo (Expr.Printable.readsBack start hstart)
      (Expr.Printable.readsBack stop hstop) (Expr.StepPrintable.readsBack by_ hby)
      (Body.Printable.readsBack b hb) var p
  | .whileDo condition b p =>
    exact readsBack_whileDo (Expr.Printable.readsBack condition h.1)
      (Body.Printable.readsBack b h.2) p
  | .function name params b p =>
    exact readsBack_function (Body.Printable.readsBack b h.2.2) name params p
  | .call callee arguments p =>
    exact readsBack_call h.1 (Expr.Printable.readsBack callee h.2.1)
      (Expr.AllPrintable.readsBack arguments h.2.2) p
termination_by structural e

theorem Expr.AllPrintable.readsBack (es : List Expr) (h : Expr.AllPrintable es) :
    ∀ e ∈ es, e.ReadsBack := by
  match es with
  | [] => nofun
  | e :: es =>
    exact List.forall_mem_cons.mpr
      ⟨Expr.Printable.readsBack e h.1, Expr.AllPrintable.readsBack es h.2⟩
termination_by structural es

theorem Expr.StepPrintable.readsBack (by_ : Option Expr) (h : Expr.StepPrintable by_) :
    ∀ e ∈ by_, e.ReadsBack := by
  match by_ with
  | none => nofun
  | some e =>
    rintro _ ⟨⟩
    exact Expr.Printable.readsBack e h
termination_by structural by_

theorem Body.Printable.readsBack (b : Body) (h : b.Printable) : b.ReadsBack := by
  match b with
  | .inline e => exact Expr.Printable.readsBack e h
termination_by structural b

theorem Chain.Printable.readsBack (chain : Chain) (h : chain.Printable) : chain.ReadsBack := by
  match chain with
  | .done => trivial
  | .otherwise b => exact Body.Printable.readsBack b h
  | .elif condition b rest =>
    exact ⟨Expr.Printable.readsBack condition h.1, Body.Printable.readsBack b h.2.1,
      Chain.Printable.readsBack rest h.2.2⟩
termination_by structural chain

end

/-- The words of a tree of the class, and the end of input, are a program with one statement. -/
theorem parse_fullWords {e : Expr} (h : e.Printable) {ts : List Located} (q : Position)
    (hwords : ts.map Located.word = e.fullWords) :
    ∃ (e' : Expr) (p : Position), e'.Alike e ∧
      (parse (ts ++ [⟨.eof, q⟩])).1 = .value (.list [e'] p) := by
  obtain ⟨e', halike, hread⟩ := (Expr.Printable.readsBack e h).closed hwords [⟨.eof, q⟩] rfl
  have hend : EndsInput (ts ++ [⟨.eof, q⟩]) := ⟨ts, q, rfl⟩
  have hfurther : Reads (.further []) [⟨.eof, q⟩] ([⟨.eof, q⟩].dropWhile Located.isNewline) :=
    .noFurther rfl
  have hstatements : Reads (.statements (.list [e'] e'.position)) (ts ++ [⟨.eof, q⟩])
      [⟨.eof, q⟩] := by
    refine .statements ?_ hfurther
    rwa [hread.dropWhile_isNewline]
  exact ⟨e', e'.position, halike, parse_of_readsProgram hend (.statements hstatements)⟩

end LineScript
