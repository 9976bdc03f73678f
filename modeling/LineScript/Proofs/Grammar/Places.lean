import LineScript.Proofs.Grammar.Spans

/-!
# Where nodes stand

Every node of a tree that was read records the place of the first token of its span, opening
parentheses left aside. Some rules take this place from a token and others from a tree that they
have already built, but what they record is the same.

  * `opening? span` is the first token of a span that is no opening parenthesis.
  * `Expr.Fits e token`: an expression of the kind of `e` can begin with the token.
  * `Recorded seg span`: the node records the place of the opening token, and this token fits.
  * `Reads.laid`: whatever is read is laid out on its tokens with its places recorded.

**Source order.** The opening token of a span is not after any other token in it that is no opening
parenthesis, and the place of every node is that of such a token. So no node stands after its
descendants, and from the first node to the last the places never go back.
-/

namespace LineScript

/-! ### What a node records -/

/-- The first token that is no opening parenthesis. -/
def opening? (span : List Located) : Option Located :=
  span.find? fun t => t.token ≠ .symbol .lparen

/-- An expression like this one can begin with the token. Where it begins with an operand, a callee
or a statement, it stands where that stands. -/
def Expr.Fits : Expr → Token → Prop
  | .number value _, token => token.number? = some value
  | .text value _, token => token = .str value
  | .list _ _, token => token = .symbol .lbracket
  | .name x _, token => token = .identifier x
  | .assign _ _ _, token => token = .keyword .var
  | .binary _ left _ p, token => p = left.position ∧ left.Fits token
  | .unary op _ _, token => token = .symbol op.symbol
  | .ifThen _ _ _ _, token => token = .keyword .if_
  | .forTo _ _ _ _ _ _, token => token = .keyword .for_
  | .whileDo _ _ _, token => token = .keyword .while_
  | .function _ _ _ _, token => token = .keyword .function
  | .call callee _ p, token => p = callee.position ∧ callee.Fits token

/-- The span opens with a token at the place `p` that an expression like `e` can begin with. -/
def OpensAt (e : Expr) (p : Position) (span : List Located) : Prop :=
  ∃ t, opening? span = some t ∧ t.position = p ∧ e.Fits t.token

/-- The node of the piece records the place where its span opens, with a token that fits. -/
def Recorded : Segment → List Located → Prop
  | .node e, span => OpensAt e e.position span
  | .lines es p, span => ∃ first rest, es = first :: rest ∧ p = first.position ∧ OpensAt first p span
  | .token _, _ | .number _, _ | .breaks, _ => True

section opening

variable {t : Located} {span : List Located}

theorem opening?_cons (h : t.token ≠ .symbol .lparen) : opening? (t :: span) = some t := by
  simp [opening?, h]

theorem opening?_lparen (p : Position) :
    opening? (⟨.symbol .lparen, p⟩ :: span) = opening? span := by
  simp [opening?]

theorem opening?_append (h : opening? span = some t) (more : List Located) :
    opening? (span ++ more) = some t := by
  unfold opening? at h ⊢
  rw [List.find?_append, h, Option.some_or]

/-- What comes later does not change how a span opens. -/
theorem OpensAt.append {e : Expr} {p : Position} (h : OpensAt e p span) (more : List Located) :
    OpensAt e p (span ++ more) := by
  obtain ⟨t, hopening, hplace⟩ := h
  exact ⟨t, opening?_append hopening more, hplace⟩

theorem OpensAt.parens {e : Expr} {p : Position} (h : OpensAt e p span) (q : Position)
    (more : List Located) : OpensAt e p (⟨.symbol .lparen, q⟩ :: (span ++ more)) := by
  obtain ⟨t, hopening, hplace⟩ := h.append more
  exact ⟨t, by rw [opening?_lparen, hopening], hplace⟩

/-- A span that begins with a token that fits. -/
theorem opensAt_cons {e : Expr} (hfits : e.Fits t.token) (hne : t.token ≠ .symbol .lparen) :
    OpensAt e t.position (t :: span) :=
  ⟨t, opening?_cons hne, rfl, hfits⟩

end opening

/-! ### What is read is laid out -/

/-- The tokens `span` are laid out as the phrase. A chain is laid out together with what it goes on
from, and after the last statement there may be separators. -/
def Phrase.LaidOn : Phrase → List Located → Prop
  | .expression e, span | .tier _ e, span => Laid Recorded [.node e] span
  | .chain _ left e, span => ∀ own, Laid Recorded [.node left] own →
      Laid Recorded [.node e] (own ++ span)
  | .statements e, span => Laid Recorded [.breaks, e.asLines, .breaks] span
  | .further es, span => ∃ own last, span = own ++ last ∧ Laid Recorded (Segment.further es) own ∧
      ∀ t ∈ last, t.token = .newline
  | .items closing es, span | .separated closing es, span =>
    Laid Recorded (Segment.joined (es.map .node) ++ [.symbol closing]) span
  | .signature x params, span => Laid Recorded (Segment.signature x params) span
  | .body b, span => Laid Recorded (b.segments ++ b.closing) span
  | .functionBody b, span => Laid Recorded b.functionSegments span
  | .case condition b rest, span =>
    Laid Recorded (.node condition :: .keyword .then_ :: (b.segments ++ rest.segments b.closing)) span
  | .after rest, span => Laid Recorded (rest.segments []) span
  | .step by_, span => Laid Recorded (Segment.step by_) span

section layouts

variable {segs : List Segment} {own span : List Located} {e : Expr} {p : Position}

/-- A token that a layout asks for, wherever it stands. -/
theorem Laid.cons {token : Token} (h : Laid Recorded segs span) :
    Laid Recorded (.token token :: segs) (⟨token, p⟩ :: span) := by
  have hlaid : Laid Recorded (.token (Located.mk token p).token :: segs) (⟨token, p⟩ :: span) :=
    .token h
  exact hlaid

/-- A node whose first token is one of its own. -/
theorem laid_node {token : Token} (hparts : Laid Recorded e.segments (⟨token, p⟩ :: span))
    (hplace : e.position = p) (hfits : e.Fits token) (hne : token ≠ .symbol .lparen) :
    Laid Recorded [.node e] (⟨token, p⟩ :: span) := by
  have hrecorded : Recorded (.node e) (⟨token, p⟩ :: span) := by
    show OpensAt e e.position _
    rw [hplace]
    exact opensAt_cons hfits hne
  exact .ofNode rfl hparts hrecorded

/-- A node that begins with another one and stands where that stands. -/
theorem laid_onto {left : Expr} (hleft : Laid Recorded [.node left] own)
    (hparts : Laid Recorded e.segments (own ++ span)) (hplace : e.position = left.position)
    (hfits : ∀ token, left.Fits token → e.Fits token) : Laid Recorded [.node e] (own ++ span) := by
  obtain ⟨t, hopening, hposition, htoken⟩ := OpensAt.append hleft.holds span
  have hrecorded : Recorded (.node e) (own ++ span) :=
    ⟨t, hopening, hposition.trans hplace.symm, hfits _ htoken⟩
  exact .ofNode rfl hparts hrecorded

theorem mem_takeWhile_newline (ts : List Located) :
    ∀ t ∈ ts.takeWhile Located.isNewline, t.token = .newline := by
  intro t ht
  have hnewline : t.isNewline = true := List.mem_takeWhile_imp ht
  exact of_decide_eq_true hnewline

/-- Separators come before what is left of the tokens after them. -/
theorem newlines_append {ts rest : List Located} (h : ts.dropWhile Located.isNewline = rest) :
    ts = ts.takeWhile Located.isNewline ++ rest := by
  rw [← h, List.takeWhile_append_dropWhile]

end layouts

theorem laid_names {closing : Symbol} {params : List String} {ts rest : List Located}
    (h : Listed IsName closing params ts rest) :
    ∃ span, ts = span ++ rest ∧
      Laid Recorded (Segment.joined (params.map .name) ++ [.symbol closing]) span := by
  induction h with
  | last hitem =>
    obtain ⟨p, rfl⟩ := hitem
    exact ⟨[_, _], rfl, .cons (.cons .nil)⟩
  | @more a as p ts mid rest hitem hrest ih =>
    obtain ⟨q, rfl⟩ := hitem
    obtain ⟨span, rfl, hlaid⟩ := ih
    have hsome : as.map Segment.name ≠ [] := by
      cases hrest <;> nofun
    refine ⟨_ :: _ :: span, rfl, ?_⟩
    rw [List.map_cons, Segment.joined_cons _ hsome]
    exact .cons (.cons hlaid)

/-- A further branch makes the `END` of the block before it needless. -/
theorem Chain.segments_of_ne_done {rest : Chain} (h : rest ≠ .done) (closing : List Segment) :
    rest.segments closing = rest.segments [] := by
  cases rest with
  | done => exact absurd rfl h
  | otherwise => rfl
  | elif => rfl

/-- **What is read is laid out.** The tokens of a phrase are a span of it, and all nodes on it record
their places. -/
theorem Reads.laid {phrase : Phrase} {ts rest : List Located} (h : Reads phrase ts rest) :
    ∃ span, ts = span ++ rest ∧ phrase.LaidOn span := by
  -- each case puts the spans of its parts together in the order of `Expr.segments`
  induction h with
  | assign _ ih =>
    obtain ⟨span, rfl, hvalue⟩ := ih
    exact ⟨_ :: _ :: _ :: span, rfl, laid_node (.cons (.cons (.cons hvalue))) rfl rfl nofun⟩
  | logical _ ih => exact ih
  | @unary op _ _ _ _ _ ih =>
    obtain ⟨span, rfl, hoperand⟩ := ih
    have hne : Token.symbol op.symbol ≠ .symbol .lparen := by
      cases op <;> decide
    exact ⟨_ :: span, rfl, laid_node (.cons hoperand) rfl rfl hne⟩
  | operators _ _ _ ih ih' =>
    obtain ⟨own, rfl, hfirst⟩ := ih
    obtain ⟨span, rfl, hchain⟩ := ih'
    exact ⟨own ++ span, by simp, hchain own hfirst⟩
  | @link _ op left right _ p _ _ _ _ _ _ ih ih' =>
    obtain ⟨operand, rfl, hright⟩ := ih
    obtain ⟨span, rfl, hchain⟩ := ih'
    refine ⟨⟨.symbol op.symbol, p⟩ :: (operand ++ span), by simp, ?_⟩
    -- the tree grows to the left: what has been read becomes the left operand
    intro own hleft
    have hbinary : Laid Recorded [.node (.binary op left right left.position)]
        (own ++ ⟨.symbol op.symbol, p⟩ :: operand) :=
      laid_onto hleft (hleft.append (.cons hright)) rfl fun _ hfits => ⟨rfl, hfits⟩
    simpa using hchain _ hbinary
  | stop _ => exact ⟨[], rfl, fun own hleft => by simpa using hleft⟩
  | @call _ _ p _ _ _ _ _ ih ih' =>
    obtain ⟨own, rfl, hcallee⟩ := ih
    obtain ⟨span, rfl, harguments⟩ := ih'
    refine ⟨own ++ ⟨.symbol .lparen, p⟩ :: span, by simp, ?_⟩
    exact laid_onto hcallee (hcallee.append (.cons harguments)) rfl fun _ hfits => ⟨rfl, hfits⟩
  | @number token _ _ _ hvalue =>
    have hne : token ≠ .symbol .lparen := by
      rintro rfl
      cases hvalue
    exact ⟨[_], rfl, laid_node (.number hvalue .nil) rfl hvalue hne⟩
  | text => exact ⟨[_], rfl, laid_node (.cons .nil) rfl rfl nofun⟩
  | name => exact ⟨[_], rfl, laid_node (.cons .nil) rfl rfl nofun⟩
  | @grouping _ p q _ _ _ ih =>
    obtain ⟨own, rfl, he⟩ := ih
    refine ⟨⟨.symbol .lparen, p⟩ :: (own ++ [⟨.symbol .rparen, q⟩]), by simp, ?_⟩
    exact .parens he (OpensAt.parens he.holds _ _) .nil
  | list _ ih =>
    obtain ⟨span, rfl, hes⟩ := ih
    exact ⟨_ :: span, rfl, laid_node (.cons hes) rfl rfl nofun⟩
  | conditional _ ih =>
    obtain ⟨span, rfl, hcase⟩ := ih
    exact ⟨_ :: span, rfl, laid_node (.cons hcase) rfl rfl nofun⟩
  | @forTo x _ _ _ _ p q r u v _ _ _ _ _ _ _ _ _ ih₁ ih₂ ih₃ ih₄ =>
    obtain ⟨start, rfl, hstart⟩ := ih₁
    obtain ⟨stop, rfl, hstop⟩ := ih₂
    obtain ⟨by_, rfl, hstep⟩ := ih₃
    obtain ⟨body, rfl, hbody⟩ := ih₄
    refine ⟨⟨.keyword .for_, p⟩ :: ⟨.identifier x, q⟩ :: ⟨.symbol .equals, r⟩ ::
      (start ++ ⟨.keyword .to_, u⟩ :: (stop ++ (by_ ++ ⟨.keyword .then_, v⟩ :: body))), by simp, ?_⟩
    exact laid_node (.cons (.cons (.cons (hstart.append (.cons (hstop.append (hstep.append
      (.cons hbody)))))))) rfl rfl nofun
  | @whileDo _ _ p q _ _ _ _ _ ih ih' =>
    obtain ⟨condition, rfl, hcondition⟩ := ih
    obtain ⟨body, rfl, hbody⟩ := ih'
    refine ⟨⟨.keyword .while_, p⟩ :: (condition ++ ⟨.keyword .then_, q⟩ :: body), by simp, ?_⟩
    exact laid_node (.cons (hcondition.append (.cons hbody))) rfl rfl nofun
  | @function _ _ _ p _ _ _ _ _ ih ih' =>
    obtain ⟨signature, rfl, hsignature⟩ := ih
    obtain ⟨body, rfl, hbody⟩ := ih'
    refine ⟨⟨.keyword .function, p⟩ :: (signature ++ body), by simp, ?_⟩
    exact laid_node (.cons (hsignature.append hbody)) rfl rfl nofun
  | named _ ih =>
    obtain ⟨span, rfl, hparams⟩ := ih
    exact ⟨_ :: span, rfl, .cons hparams⟩
  | noParams => exact ⟨[_, _], rfl, .cons (.cons .nil)⟩
  | params hparams =>
    obtain ⟨span, rfl, hnames⟩ := laid_names hparams
    exact ⟨_ :: span, rfl, .cons hnames⟩
  | arrow _ ih =>
    obtain ⟨span, rfl, he⟩ := ih
    exact ⟨_ :: span, rfl, .cons he⟩
  | @functionBlock _ p q _ _ _ ih =>
    obtain ⟨span, rfl, he⟩ := ih
    refine ⟨⟨.newline, p⟩ :: (span ++ [⟨.keyword .end_, q⟩]), by simp, ?_⟩
    exact .cons (he.append (.cons .nil))
  | inline _ ih => exact ih
  | @block _ p q _ _ _ ih =>
    obtain ⟨span, rfl, he⟩ := ih
    refine ⟨⟨.newline, p⟩ :: (span ++ [⟨.keyword .end_, q⟩]), by simp, ?_⟩
    exact .cons (he.append (.cons .nil))
  | @inlineCase _ _ _ p _ _ _ _ _ _ _ ih₁ ih₂ ih₃ =>
    obtain ⟨condition, rfl, hcondition⟩ := ih₁
    obtain ⟨own, rfl, he⟩ := ih₂
    obtain ⟨span, rfl, hchain⟩ := ih₃
    refine ⟨condition ++ ⟨.keyword .then_, p⟩ :: (own ++ span), by simp, ?_⟩
    exact hcondition.append (.cons (he.append hchain))
  | @lastBlock _ _ p q r _ _ _ _ _ ih ih' =>
    obtain ⟨condition, rfl, hcondition⟩ := ih
    obtain ⟨own, rfl, he⟩ := ih'
    refine ⟨condition ++ ⟨.keyword .then_, p⟩ :: ⟨.newline, q⟩ :: (own ++ [⟨.keyword .end_, r⟩]),
      by simp, ?_⟩
    exact hcondition.append (.cons (.cons (he.append (.cons .nil))))
  | @blockCase _ _ _ p q _ _ _ _ _ _ hmore _ ih₁ ih₂ ih₃ =>
    obtain ⟨condition, rfl, hcondition⟩ := ih₁
    obtain ⟨own, rfl, he⟩ := ih₂
    obtain ⟨span, rfl, hchain⟩ := ih₃
    refine ⟨condition ++ ⟨.keyword .then_, p⟩ :: ⟨.newline, q⟩ :: (own ++ span), by simp, ?_⟩
    rw [Phrase.LaidOn, Chain.segments_of_ne_done hmore]
    exact hcondition.append (.cons (.cons (he.append hchain)))
  | elif _ ih =>
    obtain ⟨span, rfl, hcase⟩ := ih
    exact ⟨_ :: span, rfl, .cons hcase⟩
  | otherwise _ ih =>
    obtain ⟨span, rfl, hbody⟩ := ih
    exact ⟨_ :: span, rfl, .cons hbody⟩
  | done _ _ => exact ⟨[], rfl, .nil⟩
  | step _ ih =>
    obtain ⟨span, rfl, he⟩ := ih
    exact ⟨_ :: span, rfl, .cons he⟩
  | noStep _ => exact ⟨[], rfl, .nil⟩
  | @statements e es ts _ _ _ _ ih ih' =>
    obtain ⟨first, hskipped, he⟩ := ih
    obtain ⟨_, rfl, own, last, rfl, hes, hlast⟩ := ih'
    refine ⟨ts.takeWhile Located.isNewline ++ ((first ++ own) ++ last), ?_, ?_⟩
    · simpa using newlines_append hskipped
    · have hrecorded : Recorded (.lines (e :: es) e.position) (first ++ own) :=
        ⟨e, es, rfl, rfl, OpensAt.append he.holds own⟩
      exact .breaks (mem_takeWhile_newline ts)
        (.node rfl (he.append hes) hrecorded (.ofNewlines hlast))
  | @further e es p ts _ _ _ _ ih ih' =>
    obtain ⟨first, hskipped, he⟩ := ih
    obtain ⟨_, rfl, own, last, rfl, hes, hlast⟩ := ih'
    refine ⟨⟨.newline, p⟩ :: (ts.takeWhile Located.isNewline ++ (first ++ own)) ++ last, ?_, _, last,
      rfl, ?_, hlast⟩
    · simpa using newlines_append hskipped
    · exact .cons (.breaks (mem_takeWhile_newline ts) (he.append hes))
  | @noFurther ts _ =>
    exact ⟨ts.takeWhile Located.isNewline, newlines_append rfl, [], _, rfl, .nil,
      mem_takeWhile_newline ts⟩
  | noItems => exact ⟨[_], rfl, .cons .nil⟩
  | items _ ih => exact ih
  | @last closing _ p _ _ _ ih =>
    obtain ⟨own, rfl, he⟩ := ih
    exact ⟨own ++ [⟨.symbol closing, p⟩], by simp, he.append (.cons .nil)⟩
  | @more closing e es p _ _ _ _ hes ih ih' =>
    obtain ⟨own, rfl, he⟩ := ih
    obtain ⟨span, rfl, hmore⟩ := ih'
    have hsome : es.map Segment.node ≠ [] := by
      simpa using hes.items_ne_nil
    refine ⟨own ++ ⟨.symbol .comma, p⟩ :: span, by simp, ?_⟩
    rw [Phrase.LaidOn, List.map_cons, Segment.joined_cons _ hsome]
    exact he.append (.cons hmore)

/-! ### Source order -/

/-- The tokens stand one after the other. -/
def InOrder (span : List Located) : Prop :=
  span.Pairwise fun s t => s.position.offset < t.position.offset

theorem opening?_mem {span : List Located} {t : Located} (h : opening? span = some t) :
    t ∈ span ∧ t.token ≠ .symbol .lparen := by
  have hne := List.find?_some h
  exact ⟨List.mem_of_find?_eq_some h, of_decide_eq_true hne⟩

/-- The opening token of a span is not after any other that is no opening parenthesis. -/
theorem opening?_le {span : List Located} {s t : Located} (hordered : InOrder span)
    (h : opening? span = some t) (hs : s ∈ span) (hne : s.token ≠ .symbol .lparen) :
    t.position.offset ≤ s.position.offset := by
  induction span with
  | nil => cases hs
  | cons first span ih =>
    obtain ⟨hfirst, hordered⟩ := List.pairwise_cons.mp hordered
    rcases List.mem_cons.mp hs with rfl | hlater
    · rw [opening?_cons hne] at h
      cases h
      exact Nat.le_refl _
    by_cases hparen : first.token = .symbol .lparen
    · have hskip : opening? (first :: span) = opening? span := by
        simp [opening?, hparen]
      rw [hskip] at h
      exact ih hordered h hlater
    · rw [opening?_cons hparen] at h
      cases h
      exact Nat.le_of_lt (hfirst s hlater)

/-- A node records the place of the opening token of its span. -/
theorem Recorded.opens {seg : Segment} {own : List Located} {e : Expr} (h : Recorded seg own)
    (hnode : seg.node? = some e) : ∃ t, opening? own = some t ∧ t.position = e.position := by
  cases seg with
  | node e' =>
    cases hnode
    obtain ⟨t, hopening, hposition, -⟩ := h
    exact ⟨t, hopening, hposition⟩
  | lines es p =>
    cases hnode
    obtain ⟨first, rest, -, -, t, hopening, hposition, -⟩ := h
    exact ⟨t, hopening, hposition⟩
  | token | number | breaks => cases hnode

namespace Laid

variable {segs segs' : List Segment} {span span' : List Located}

/-- Every node stands at a token of the span that is no opening parenthesis. -/
theorem token_of_mem (h : Laid Recorded segs span) {e : Expr} (he : e ∈ preorderOf segs) :
    ∃ t ∈ span, t.token ≠ .symbol .lparen ∧ t.position = e.position := by
  obtain ⟨seg, before, own, after, hnode, rfl, -, hrecorded⟩ := h.span_of_mem he
  obtain ⟨t, hopening, hposition⟩ := hrecorded.opens hnode
  obtain ⟨hmem, hne⟩ := opening?_mem hopening
  exact ⟨t, by simp [hmem], hne, hposition⟩

/-- The nodes of a span do not stand after the nodes of a later one. -/
theorem le_of_append (h : Laid Recorded segs span) (h' : Laid Recorded segs' span')
    (hordered : InOrder (span ++ span')) {d e : Expr} (hd : d ∈ preorderOf segs)
    (he : e ∈ preorderOf segs') : d.position.offset ≤ e.position.offset := by
  obtain ⟨s, hs, -, hsplace⟩ := h.token_of_mem hd
  obtain ⟨t, ht, -, htplace⟩ := h'.token_of_mem he
  have hlt := (List.pairwise_append.mp hordered).2.2 s hs t ht
  rw [hsplace, htplace] at hlt
  exact Nat.le_of_lt hlt

/-- A node does not stand after the nodes in its span. -/
theorem le_parts {seg : Segment} {e d : Expr} (hnode : seg.node? = some e)
    (h : Laid Recorded seg.parts span) (hrecorded : Recorded seg span) (hordered : InOrder span)
    (hd : d ∈ preorderOf seg.parts) : e.position.offset ≤ d.position.offset := by
  obtain ⟨t, hopening, hposition⟩ := hrecorded.opens hnode
  obtain ⟨s, hs, hne, hsplace⟩ := h.token_of_mem hd
  rw [← hposition, ← hsplace]
  exact opening?_le hordered hopening hs hne

/-- From the first node to the last the places never go back. -/
theorem sorted (h : Laid Recorded segs span) (hordered : InOrder span) :
    (preorderOf segs).Pairwise fun d e => d.position.offset ≤ e.position.offset := by
  -- the nodes of one piece, and after them those of the pieces that follow
  have hjoin {seg : Segment} {segs : List Segment} {own span : List Located}
      (hown : Laid Recorded [seg] own) (hrest : Laid Recorded segs span)
      (hordered : InOrder (own ++ span))
      (hfirst : seg.preorder.Pairwise fun d e => d.position.offset ≤ e.position.offset)
      (hlater : (preorderOf segs).Pairwise fun d e => d.position.offset ≤ e.position.offset) :
      (preorderOf (seg :: segs)).Pairwise fun d e => d.position.offset ≤ e.position.offset := by
    rw [preorderOf_cons, List.pairwise_append]
    refine ⟨hfirst, hlater, ?_⟩
    intro d hd e he
    exact hown.le_of_append hrest hordered (by simpa using hd) he
  induction h with
  | nil => exact .nil
  | token _ ih => exact ih (List.pairwise_cons.mp hordered).2
  | number _ _ ih => exact ih (List.pairwise_cons.mp hordered).2
  | breaks _ _ ih => exact ih (List.pairwise_append.mp hordered).2.1
  | node hnode hown hholds hrest ihown ih =>
    obtain ⟨hordered₁, hordered₂, -⟩ := List.pairwise_append.mp hordered
    refine hjoin (.ofNode hnode hown hholds) hrest hordered ?_ (ih hordered₂)
    rw [Segment.preorder_eq hnode, List.pairwise_cons]
    exact ⟨fun d hd => hown.le_parts hnode hholds hordered₁ hd, ihown hordered₁⟩
  | @parens e p q own segs span hown hholds hrest ihown ih =>
    -- the parentheses stand around the nodes and leave their order alone
    have hwhole : Laid Recorded [.node e] (⟨.symbol .lparen, p⟩ :: (own ++ [⟨.symbol .rparen, q⟩])) :=
      .parens hown hholds .nil
    have hsplit : InOrder ((⟨.symbol .lparen, p⟩ :: (own ++ [⟨.symbol .rparen, q⟩])) ++ span) := by
      simpa using hordered
    obtain ⟨hordered₁, hordered₂, -⟩ := List.pairwise_append.mp hsplit
    have hinside : InOrder own :=
      (List.pairwise_append.mp (List.pairwise_cons.mp hordered₁).2).1
    refine hjoin hwhole hrest hsplit ?_ (ih hordered₂)
    simpa using ihown hinside

end Laid

/-! ### Programs -/

/-- The layout of a program. -/
def Segment.program : List Expr → Position → List Segment
  | [], _ => [.breaks, .token .eof]
  | e :: es, p => [.breaks, .lines (e :: es) p, .breaks, .token .eof]

theorem preorderOf_program {es : List Expr} (h : es ≠ []) (p : Position) :
    preorderOf (Segment.program es p) = (Expr.list es p).preorder := by
  obtain ⟨e, es, rfl⟩ := List.exists_cons_of_ne_nil h
  simp [Segment.program]

/-- A program is laid out on its tokens, up to the end of input. -/
theorem ReadsProgram.laid {tree : Expr} {tokens : List Located}
    (h : ReadsProgram tree tokens []) :
    ∃ es p, tree = .list es p ∧ Laid Recorded (Segment.program es p) tokens := by
  cases h with
  | @empty p _ _ hskip =>
    refine ⟨[], p, rfl, ?_⟩
    rw [newlines_append hskip]
    exact .breaks (mem_takeWhile_newline tokens) (.cons .nil)
  | statements htree =>
    obtain ⟨span, rfl, hlaid⟩ := htree.laid
    cases htree with
    | @statements e es _ _ _ _ _ =>
      exact ⟨e :: es, e.position, rfl, Laid.append hlaid (.cons .nil)⟩

/-- **Node positions.** A tree that is read from tokens in source order is laid out on them. Every
node, lists of statements included, has a span there and records the place of the first token in it
that is no opening parenthesis, and this token fits the node. So no node stands after its
descendants, and in preorder the places never go back. A program without statements has no such
token. -/
theorem nodes_record_opening_places (tokens : List Located) (tree : Expr)
    (honce : EndsOnce tokens) (hordered : InOrder tokens) (h : (parse tokens).1 = .value tree) :
    ∃ es p, tree = .list es p ∧ Laid Recorded (Segment.program es p) tokens ∧
      (es ≠ [] → ∀ e ∈ tree.preorder, ∃ seg before own after, seg.node? = some e ∧
        tokens = before ++ own ++ after ∧ Laid Recorded seg.parts own ∧ Recorded seg own) ∧
      (∀ e ∈ tree.preorder, ∀ d ∈ e.preorder, e.position.offset ≤ d.position.offset) ∧
      tree.preorder.Pairwise fun d e => d.position.offset ≤ e.position.offset := by
  obtain ⟨rest, hread, hend⟩ := readsProgram_of_parse honce.1 h
  obtain rfl := hend honce
  obtain ⟨es, p, rfl, hlaid⟩ := hread.laid
  refine ⟨es, p, rfl, hlaid, ?_⟩
  by_cases hempty : es = []
  · subst hempty
    have honly : (Expr.list [] p).preorder = [.list [] p] := rfl
    rw [honly]
    refine ⟨fun hne => absurd rfl hne, ?_, List.pairwise_singleton _ _⟩
    intro e he d hd
    obtain rfl := List.mem_singleton.mp he
    obtain rfl := List.mem_singleton.mp hd
    exact Nat.le_refl _
  rw [← preorderOf_program hempty p]
  refine ⟨fun _ e he => hlaid.span_of_mem he, ?_, hlaid.sorted hordered⟩
  intro e he d hd
  obtain ⟨seg, before, own, after, hnode, rfl, hown, hrecorded⟩ := hlaid.span_of_mem he
  have hinside : InOrder own := (List.pairwise_append.mp (List.pairwise_append.mp hordered).1).2.1
  have hnodes := Segment.preorder_eq hnode
  rw [Segment.preorder, hnode, Option.elim_some] at hnodes
  rw [hnodes] at hd
  rcases List.mem_cons.mp hd with rfl | hd
  · exact Nat.le_refl _
  · exact hown.le_parts hnode hrecorded hinside hd

/-- Tokens that stand one column apart, on one line. -/
def oneLine (tokens : List Token) : List Located :=
  tokens.zipIdx.map fun (token, k) => ⟨token, ⟨k, 0, k⟩⟩

/-- A call and a list that are added, in parentheses that vanish, and a loop with a block. -/
def nestedTokens : List Located :=
  oneLine [.newline, .symbol .lparen, .symbol .lparen, .identifier "f", .symbol .rparen,
    .symbol .lparen, .identifier "x", .symbol .rparen, .symbol .rparen, .symbol .plus,
    .symbol .lbracket, .identifier "y", .symbol .rbracket, .newline, .keyword .while_,
    .identifier "a", .keyword .then_, .newline, .newline, .keyword .var, .identifier "z",
    .symbol .equals, .symbol .bang, .identifier "b", .newline, .keyword .end_, .eof]

/-- The sum stands where the callee stands, after two parentheses, and the block where its statement
stands. -/
theorem nested_nodes_record_opening_places :
    let p (k : Nat) : Position := ⟨k, 0, k⟩
    let total := Expr.binary .add (.call (.name "f" (p 3)) [.name "x" (p 6)] (p 3))
      (.list [.name "y" (p 11)] (p 10)) (p 3)
    let loop := Expr.whileDo (.name "a" (p 15))
      (.block (.list [.assign "z" (.unary .not (.name "b" (p 23)) (p 22)) (p 19)] (p 19))) (p 14)
    let tree := Expr.list [total, loop] (p 3)
    EndsOnce nestedTokens ∧ InOrder nestedTokens ∧ (parse nestedTokens).1 = .value tree ∧
      Laid Recorded (Segment.program [total, loop] (p 3)) nestedTokens ∧
      tree.preorder.map (·.position.offset) = [3, 3, 3, 3, 6, 10, 11, 14, 15, 19, 19, 22, 23] ∧
      tree.preorder.Pairwise fun d e => d.position.offset ≤ e.position.offset := by
  intro p total loop tree
  have honce : EndsOnce nestedTokens := ⟨⟨nestedTokens.dropLast, p 26, rfl⟩, by decide⟩
  have hordered : InOrder nestedTokens := by
    unfold InOrder
    decide
  have htree : (parse nestedTokens).1 = .value tree := rfl
  obtain ⟨es, q, hlist, hlaid, -, -, hsorted⟩ :=
    nodes_record_opening_places nestedTokens tree honce hordered htree
  obtain ⟨rfl, rfl⟩ := Expr.list.inj hlist
  exact ⟨honce, hordered, htree, hlaid, rfl, hsorted⟩

end LineScript
