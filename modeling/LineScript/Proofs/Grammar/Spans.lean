import LineScript.Proofs.Grammar.Rendering

/-!
# Trees on the tokens they were read from

Every node of a tree was read from a stretch of the tokens, its *span*. A span is made of tokens of
the node's own and of the spans of its parts, in the order in which they are written.

  * `Segment` is a piece of such a layout: a token, separators, an expression, or the statements of a
    block. `Segment.parts` lays out the inside of an expression or a block.
  * `Laid P segs span`: the tokens `span` are laid out as `segs` say, all the way down, and every
    node satisfies `P` on its span, with the parentheses around it and without them.
  * `Expr.preorder` lists all nodes of a tree, each before its parts; `preorderOf` does so for a
    layout.

**Key idea.** A layout says nothing about the places that nodes record, so `P` can be anything that
one wants to know about a node and its span. What holds of a node on its span is known of all nodes
of a tree as soon as the tree is laid out (`Laid.span_of_mem`).
-/

namespace LineScript

/-! ### Layouts -/

/-- A piece of a layout. -/
inductive Segment
  /-- A token. -/
  | token (token : Token)
  /-- A token that is the number. -/
  | number (value : Float)
  /-- Any number of separators. -/
  | breaks
  /-- An expression, possibly in parentheses. -/
  | node (e : Expr)
  /-- The statements of a block or a program, as a list at the place `p`. -/
  | lines (es : List Expr) (p : Position)

namespace Segment

/-- The piece that is a keyword. -/
abbrev keyword (word : Keyword) : Segment := .token (.keyword word)

/-- The piece that is a symbol. -/
abbrev symbol (mark : Symbol) : Segment := .token (.symbol mark)

/-- The piece that is a name. -/
abbrev name (name : String) : Segment := .token (.identifier name)

/-- The node that a piece stands for. -/
def node? : Segment → Option Expr
  | node e => some e
  | lines es p => some (.list es p)
  | token _ | number _ | breaks => none

/-- Pieces with commas between them. -/
def joined (segs : List Segment) : List Segment :=
  segs.intersperse (.symbol .comma)

theorem joined_cons {segs : List Segment} (seg : Segment) (h : segs ≠ []) :
    joined (seg :: segs) = seg :: .symbol .comma :: joined segs := by
  obtain ⟨seg', segs, rfl⟩ := List.exists_cons_of_ne_nil h
  exact List.intersperse_cons_cons

/-- Statements after the first, each after at least one separator. -/
def further : List Expr → List Segment
  | [] => []
  | e :: es => .token .newline :: .breaks :: .node e :: further es

end Segment

/-- The piece that is a tree where statements stand. -/
def Expr.asLines : Expr → Segment
  | list es p => .lines es p
  | e => .node e

/-- The layout of a body, without its `END`. -/
def Body.segments : Body → List Segment
  | inline e => [.node e]
  | block e => [.token .newline, .breaks, e.asLines, .breaks]

/-- The `END` of a block that is not followed by a further branch. -/
def Body.closing : Body → List Segment
  | inline _ => []
  | block _ => [.keyword .end_]

/-- The layout of what follows a case; `closing` ends the case if nothing follows. -/
def Chain.segments (closing : List Segment) : Chain → List Segment
  | done => closing
  | otherwise b => .keyword .else_ :: (b.segments ++ b.closing)
  | elif condition b rest =>
    .keyword .elif :: .node condition :: .keyword .then_ :: (b.segments ++ rest.segments b.closing)

/-- The layout of the name of a function, which may be missing, and its parameters. -/
def Segment.signature (x : Option String) (params : List String) : List Segment :=
  (x.map Segment.name).toList ++ .symbol .lparen ::
    (Segment.joined (params.map .name) ++ [.symbol .rparen])

/-- The layout of the body of a function: on the same line there is an arrow before it. -/
def Body.functionSegments (b : Body) : List Segment :=
  (if b.isBlock then [] else [.symbol .arrow]) ++ (b.segments ++ b.closing)

/-- The layout of the step of a loop, which may be missing. -/
def Segment.step (by_ : Option Expr) : List Segment :=
  by_.elim [] fun e => [.keyword .step, .node e]

/-- The layout of the inside of an expression. -/
def Expr.segments : Expr → List Segment
  | number value _ => [.number value]
  | text value _ => [.token (.str value)]
  | list es _ => .symbol .lbracket :: (Segment.joined (es.map .node) ++ [.symbol .rbracket])
  | name x _ => [.name x]
  | assign x value _ => [.keyword .var, .name x, .symbol .equals, .node value]
  | binary op left right _ => [.node left, .symbol op.symbol, .node right]
  | unary op operand _ => [.symbol op.symbol, .node operand]
  | ifThen condition b rest _ =>
    .keyword .if_ :: .node condition :: .keyword .then_ :: (b.segments ++ rest.segments b.closing)
  | forTo var start stop by_ b _ =>
    .keyword .for_ :: .name var :: .symbol .equals :: .node start :: .keyword .to_ :: .node stop ::
      (Segment.step by_ ++ .keyword .then_ :: (b.segments ++ b.closing))
  | whileDo condition b _ =>
    .keyword .while_ :: .node condition :: .keyword .then_ :: (b.segments ++ b.closing)
  | function x params b _ =>
    .keyword .function :: (Segment.signature x params ++ b.functionSegments)
  | call callee arguments _ =>
    .node callee :: .symbol .lparen :: (Segment.joined (arguments.map .node) ++ [.symbol .rparen])

/-- The layout of the inside of a piece. -/
def Segment.parts : Segment → List Segment
  | node e => e.segments
  | lines (e :: es) _ => .node e :: Segment.further es
  | lines [] _ | token _ | number _ | breaks => []

/-- The tokens are laid out as the pieces say, and `P` holds of every node and its span. -/
inductive Laid (P : Segment → List Located → Prop) : List Segment → List Located → Prop
  /-- Nothing. -/
  | nil : Laid P [] []
  /-- A token. -/
  | token {t : Located} {segs : List Segment} {span : List Located} (hrest : Laid P segs span) :
    Laid P (.token t.token :: segs) (t :: span)
  /-- A number. -/
  | number {t : Located} {value : Float} {segs : List Segment} {span : List Located}
    (hvalue : t.token.number? = some value) (hrest : Laid P segs span) :
    Laid P (.number value :: segs) (t :: span)
  /-- Separators. -/
  | breaks {newlines : List Located} {segs : List Segment} {span : List Located}
    (hnewlines : ∀ t ∈ newlines, t.token = .newline) (hrest : Laid P segs span) :
    Laid P (.breaks :: segs) (newlines ++ span)
  /-- A node. -/
  | node {seg : Segment} {e : Expr} {own : List Located} {segs : List Segment}
    {span : List Located} (hnode : seg.node? = some e) (hown : Laid P seg.parts own)
    (hholds : P seg own) (hrest : Laid P segs span) : Laid P (seg :: segs) (own ++ span)
  /-- An expression in parentheses. -/
  | parens {e : Expr} {p q : Position} {own : List Located} {segs : List Segment}
    {span : List Located} (hown : Laid P [.node e] own)
    (hholds : P (.node e) (⟨.symbol .lparen, p⟩ :: (own ++ [⟨.symbol .rparen, q⟩])))
    (hrest : Laid P segs span) :
    Laid P (.node e :: segs) (⟨.symbol .lparen, p⟩ :: (own ++ ⟨.symbol .rparen, q⟩ :: span))

namespace Laid

variable {P : Segment → List Located → Prop} {xs ys : List Segment} {span span' : List Located}

theorem append (h : Laid P xs span) (h' : Laid P ys span') : Laid P (xs ++ ys) (span ++ span') := by
  induction h with
  | nil => exact h'
  | token _ ih => exact .token ih
  | number hvalue _ ih => exact .number hvalue ih
  | breaks hnewlines _ ih =>
    rw [List.append_assoc]
    exact .breaks hnewlines ih
  | node hnode hown hholds _ _ ih =>
    rw [List.append_assoc]
    exact .node hnode hown hholds ih
  | parens hown hholds _ _ ih =>
    have hwhole := Laid.parens hown hholds ih
    simpa using hwhole

/-- A single node. -/
theorem ofNode {seg : Segment} {e : Expr} (hnode : seg.node? = some e)
    (hown : Laid P seg.parts span) (hholds : P seg span) : Laid P [seg] span := by
  rw [← List.append_nil span]
  exact .node hnode hown hholds .nil

theorem ofNewlines (h : ∀ t ∈ span, t.token = .newline) : Laid P [.breaks] span := by
  rw [← List.append_nil span]
  exact .breaks h .nil

/-- What holds of every node holds of an expression that is laid out. -/
theorem holds {e : Expr} (h : Laid P [.node e] span) : P (.node e) span := by
  cases h with
  | node hnode hown hholds hrest =>
    cases hrest
    rw [List.append_nil]
    exact hholds
  | parens hown hholds hrest =>
    cases hrest
    exact hholds

end Laid

/-! ### All nodes of a tree -/

mutual

/-- The nodes of a tree, each before its parts, and these in the order in which they are written.
-/
def Expr.preorder (e : Expr) : List Expr :=
  e :: match e with
    | .number _ _ | .text _ _ | .name _ _ => []
    | .list elements _ => Expr.preorderOfAll elements
    | .assign _ value _ => value.preorder
    | .binary _ left right _ => left.preorder ++ right.preorder
    | .unary _ operand _ => operand.preorder
    | .ifThen condition body rest _ => condition.preorder ++ (body.preorder ++ rest.preorder)
    | .forTo _ start stop step body _ =>
      start.preorder ++ (stop.preorder ++ (Expr.preorderOfOption step ++ body.preorder))
    | .whileDo condition body _ => condition.preorder ++ body.preorder
    | .function _ _ body _ => body.preorder
    | .call callee arguments _ => callee.preorder ++ Expr.preorderOfAll arguments
termination_by structural e

/-- The nodes of several trees, one tree after the other. -/
def Expr.preorderOfAll : List Expr → List Expr
  | [] => []
  | e :: es => e.preorder ++ Expr.preorderOfAll es
termination_by structural es => es

/-- The nodes of a tree that may be missing. -/
def Expr.preorderOfOption : Option Expr → List Expr
  | none => []
  | some e => e.preorder
termination_by structural e => e

/-- The nodes of a body. -/
def Body.preorder : Body → List Expr
  | .inline e => e.preorder
  | .block e => e.preorder
termination_by structural b => b

/-- The nodes of the rest of a conditional. -/
def Chain.preorder : Chain → List Expr
  | .done => []
  | .otherwise body => body.preorder
  | .elif condition body rest => condition.preorder ++ (body.preorder ++ rest.preorder)
termination_by structural c => c

end

/-- The nodes of a piece. -/
def Segment.preorder (seg : Segment) : List Expr :=
  seg.node?.elim [] Expr.preorder

/-- The nodes of a layout, in order. -/
def preorderOf (segs : List Segment) : List Expr :=
  segs.flatMap Segment.preorder

@[simp] theorem preorderOf_nil : preorderOf [] = [] := rfl

@[simp] theorem preorderOf_cons (seg : Segment) (segs : List Segment) :
    preorderOf (seg :: segs) = seg.preorder ++ preorderOf segs :=
  List.flatMap_cons

@[simp] theorem preorderOf_append (xs ys : List Segment) :
    preorderOf (xs ++ ys) = preorderOf xs ++ preorderOf ys :=
  List.flatMap_append

@[simp] theorem Segment.preorder_token (token : Token) : (Segment.token token).preorder = [] := rfl

@[simp] theorem Segment.preorder_number (value : Float) : (Segment.number value).preorder = [] :=
  rfl

@[simp] theorem Segment.preorder_breaks : Segment.breaks.preorder = [] := rfl

@[simp] theorem Segment.preorder_node (e : Expr) : (Segment.node e).preorder = e.preorder := rfl

@[simp] theorem Segment.preorder_lines (es : List Expr) (p : Position) :
    (Segment.lines es p).preorder = (Expr.list es p).preorder := rfl

/-- Commas are no nodes. -/
theorem preorderOf_joined (segs : List Segment) :
    preorderOf (Segment.joined segs) = preorderOf segs := by
  induction segs with
  | nil => rfl
  | cons seg segs ih =>
    by_cases hmore : segs = []
    · subst hmore
      rfl
    · rw [Segment.joined_cons seg hmore, preorderOf_cons, preorderOf_cons, ih, preorderOf_cons]
      rfl

/-- Names are no nodes either. -/
theorem preorderOf_signature (x : Option String) (params : List String) :
    preorderOf (Segment.signature x params) = [] := by
  have hparams : preorderOf (params.map .name) = [] := by
    induction params with
    | nil => rfl
    | cons param params ih => exact ih
  cases x <;> simp [Segment.signature, preorderOf_joined, hparams]

theorem preorderOf_nodes (es : List Expr) : preorderOf (es.map .node) = Expr.preorderOfAll es := by
  induction es with
  | nil => rfl
  | cons e es ih => rw [List.map_cons, preorderOf_cons, ih, Expr.preorderOfAll, Segment.preorder_node]

theorem preorderOf_further (es : List Expr) :
    preorderOf (Segment.further es) = Expr.preorderOfAll es := by
  induction es with
  | nil => rfl
  | cons e es ih => simp [Segment.further, Expr.preorderOfAll, ih]

theorem Expr.preorder_asLines (e : Expr) : e.asLines.preorder = e.preorder := by
  cases e <;> rfl

@[simp] theorem Body.preorderOf_segments (b : Body) : preorderOf b.segments = b.preorder := by
  cases b with
  | inline e => simp [Body.segments, Body.preorder]
  | block e => simp [Body.segments, Body.preorder, Expr.preorder_asLines]

@[simp] theorem Body.preorderOf_closing (b : Body) : preorderOf b.closing = [] := by
  cases b <;> rfl

theorem Chain.preorderOf_segments {closing : List Segment} (hclosing : preorderOf closing = []) :
    (rest : Chain) → preorderOf (rest.segments closing) = rest.preorder
  | .done => hclosing
  | .otherwise b => by simp [Chain.segments, Chain.preorder]
  | .elif condition b rest => by
    have hrest := Chain.preorderOf_segments b.preorderOf_closing rest
    simp [Chain.segments, Chain.preorder, hrest]

/-- The nodes of an expression are the expression itself and the nodes of its parts. -/
theorem Expr.preorder_eq (e : Expr) : e.preorder = e :: preorderOf e.segments := by
  rw [Expr.preorder.eq_def]
  cases e with
  | number | text | name => rfl
  | list es p => simp [Expr.segments, preorderOf_joined, preorderOf_nodes]
  | assign | binary | unary => simp [Expr.segments]
  | ifThen condition b rest p =>
    simp [Expr.segments, Chain.preorderOf_segments b.preorderOf_closing]
  | forTo var start stop by_ b p =>
    cases by_ <;> simp [Expr.segments, Segment.step, Expr.preorderOfOption]
  | whileDo => simp [Expr.segments]
  | function x params b p =>
    have hbody : preorderOf b.functionSegments = b.preorder := by
      cases b <;> simp [Body.functionSegments, Body.isBlock]
    simp [Expr.segments, preorderOf_signature, hbody]
  | call callee arguments p => simp [Expr.segments, preorderOf_joined, preorderOf_nodes]

/-- The nodes of a piece are its own node and the nodes of its parts. -/
theorem Segment.preorder_eq {seg : Segment} {e : Expr} (h : seg.node? = some e) :
    seg.preorder = e :: preorderOf seg.parts := by
  cases seg with
  | node e' =>
    cases h
    exact e.preorder_eq
  | lines es p =>
    cases h
    rw [Segment.preorder_lines, Expr.preorder.eq_def]
    cases es with
    | nil => rfl
    | cons e es => simp [Segment.parts, Expr.preorderOfAll, preorderOf_further]
  | token | number | breaks => cases h

/-- Every node of a layout has a span of its own among the tokens. -/
theorem Laid.span_of_mem {P : Segment → List Located → Prop} {segs : List Segment}
    {span : List Located} (h : Laid P segs span) {e : Expr} (he : e ∈ preorderOf segs) :
    ∃ seg before own after, seg.node? = some e ∧ span = before ++ own ++ after ∧
      Laid P seg.parts own ∧ P seg own := by
  -- a span within a part of the tokens is a span within the tokens
  have hwiden (front back : List Located) {span : List Located} (hpart : ∃ seg before own after,
      seg.node? = some e ∧ span = before ++ own ++ after ∧ Laid P seg.parts own ∧ P seg own) :
      ∃ seg before own after, seg.node? = some e ∧
        front ++ (span ++ back) = before ++ own ++ after ∧ Laid P seg.parts own ∧ P seg own := by
    obtain ⟨seg, before, own, after, hnode, rfl, hown⟩ := hpart
    exact ⟨seg, front ++ before, own, after ++ back, hnode, by simp, hown⟩
  induction h with
  | nil => cases he
  | @token t _ _ _ ih => simpa using hwiden [t] [] (ih he)
  | @number t _ _ _ _ _ ih => simpa using hwiden [t] [] (ih he)
  | @breaks newlines _ _ _ _ ih => simpa using hwiden newlines [] (ih he)
  | @node seg e' own segs span hnode hown hholds _ ihown ih =>
    rw [preorderOf_cons, Segment.preorder_eq hnode, List.cons_append, List.mem_cons,
      List.mem_append] at he
    rcases he with rfl | he | he
    · exact ⟨seg, [], own, span, hnode, rfl, hown, hholds⟩
    · exact hwiden [] span (ihown he)
    · simpa using hwiden own [] (ih he)
  | @parens e' p q own segs span hown _ _ ihown ih =>
    rw [preorderOf_cons, List.mem_append] at he
    rcases he with he | he
    · exact hwiden [⟨.symbol .lparen, p⟩] (⟨.symbol .rparen, q⟩ :: span) (ihown (by simpa using he))
    · have hafter := hwiden (⟨.symbol .lparen, p⟩ :: (own ++ [⟨.symbol .rparen, q⟩])) [] (ih he)
      simpa using hafter

end LineScript
