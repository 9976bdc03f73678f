import LineScript.Proofs.Grammar.Derivation

/-!
# Trees written as tokens

A tree can be written down as the tokens it could have been read from. There is some freedom in
this: where parentheses are put, and how a number is spelled.

  * `Word` is a token up to its spelling: a number is a word by its value.
  * `Parens` decides which operands are put in parentheses, from what follows the operand, from how
    tight the place needs it to be, and from the operand.
  * `Expr.words` writes an expression, `Expr.lines` a program or a block. A block is closed by
    `END`, except before `ELIF` and `ELSE`.
  * `strip` leaves parentheses, separators and the end of input aside.

**Nothing is lost.** What is left of the tokens of a program when parentheses and separators are
left aside is what is left of its tree, written with any choice of parentheses.
-/

namespace LineScript

/-! ### Words -/

/-- A token up to its spelling. -/
inductive Word
  /-- A number, by its value. -/
  | number (value : Float)
  /-- Any other token. -/
  | token (token : Token)

namespace Word

/-- The word of a symbol. -/
abbrev symbol (mark : Symbol) : Word := .token (.symbol mark)

/-- The word of a keyword. -/
abbrev keyword (word : Keyword) : Word := .token (.keyword word)

/-- The word of a name. -/
abbrev name (name : String) : Word := .token (.identifier name)

/-- Whether a word is more than layout: parentheses, separators and the end of input are not. -/
def isContent : Word → Bool
  | token (.symbol .lparen) | token (.symbol .rparen) | token .newline | token .eof => false
  | _ => true

@[simp] theorem isContent_keyword (word : Keyword) : (keyword word).isContent = true := rfl

@[simp] theorem isContent_name (text : String) : (name text).isContent = true := rfl

@[simp] theorem isContent_newline : (token .newline).isContent = false := rfl

@[simp] theorem isContent_lparen : (symbol .lparen).isContent = false := rfl

@[simp] theorem isContent_rparen : (symbol .rparen).isContent = false := rfl

@[simp] theorem isContent_binary (op : BinaryOperator) : (symbol op.symbol).isContent = true := by
  cases op <;> rfl

@[simp] theorem isContent_unary (op : UnaryOperator) : (symbol op.symbol).isContent = true := by
  cases op <;> rfl

/-- Of the marks that are no operators, only parentheses are layout. -/
@[simp] theorem isContent_punctuation :
    (symbol .lbracket).isContent = true ∧ (symbol .rbracket).isContent = true ∧
      (symbol .comma).isContent = true ∧ (symbol .equals).isContent = true ∧
      (symbol .arrow).isContent = true :=
  ⟨rfl, rfl, rfl, rfl, rfl⟩

end Word

/-- The word that a token is. -/
def Located.word (t : Located) : Word :=
  match t.token.number? with
  | some value => .number value
  | none => .token t.token

/-- What is left when layout is left aside. -/
def strip (words : List Word) : List Word :=
  words.filter Word.isContent

@[simp] theorem strip_nil : strip [] = [] := rfl

@[simp] theorem strip_append (ws vs : List Word) : strip (ws ++ vs) = strip ws ++ strip vs :=
  List.filter_append ..

@[simp] theorem strip_cons (w : Word) (ws : List Word) :
    strip (w :: ws) = if w.isContent then w :: strip ws else strip ws :=
  List.filter_cons

/-! ### Places -/

/-- What comes after an expression. -/
inductive Follow
  /-- Something that no expression goes on with. -/
  | closed
  /-- `ELIF` or `ELSE`. -/
  | branch
  /-- An operator or the arguments of a call. -/
  | operator
  deriving DecidableEq

/-- How tight an operator binds. -/
def BinaryOperator.rank : BinaryOperator → Nat
  | and | or => 1
  | equal | notEqual | less | greater | lessEqual | greaterEqual => 3
  | add | sub => 4
  | mul | div => 5
  | pow => 7

/-- How tight the left operand has to be. -/
def BinaryOperator.leftRank : BinaryOperator → Nat
  | pow => 8
  | op => op.rank

/-- How tight the right operand has to be. -/
def BinaryOperator.rightRank : BinaryOperator → Nat
  | pow => 6
  | op => op.rank + 1

/-- How tight an operator before an operand binds, and how tight the operand has to be. -/
def UnaryOperator.rank : UnaryOperator → Nat
  | not => 2
  | plus | negate => 6

/-- How tight an expression is: loosest an assignment, then by its outermost operator, then calls,
then all that is an atom. -/
def Expr.rank : Expr → Nat
  | assign .. => 0
  | binary op .. => op.rank
  | unary op .. => op.rank
  | call .. => 8
  | _ => 9

/-- Whether an operand is put in parentheses, by what follows it and how tight it has to be. -/
abbrev Parens := Follow → Nat → Expr → Bool

/-- An operand in its place; `write` writes it. -/
def place (parens : Parens) (follow : Follow) (least : Nat) (e : Expr)
    (write : Follow → List Word) : List Word :=
  if parens follow least e then .symbol .lparen :: write .closed ++ [.symbol .rparen]
  else write follow

/-! ### The printer -/

/-- What follows the body of a case if `follow` comes after the conditional. -/
def Chain.follow (follow : Follow) : Chain → Follow
  | done => follow
  | _ => .branch

/-- The `END` of a block that is not followed by a further branch. -/
def Body.ending : Body → List Word
  | inline _ => []
  | block _ => [.keyword .end_]

@[simp] theorem Body.ending_inline (e : Expr) : (Body.inline e).ending = [] := rfl

@[simp] theorem Body.ending_block (e : Expr) : (Body.block e).ending = [.keyword .end_] := rfl

/-- The arrow before the body of a function, if it is on the same line. -/
def Body.arrow : Body → List Word
  | inline _ => [.symbol .arrow]
  | block _ => []

@[simp] theorem Body.arrow_inline (e : Expr) : (Body.inline e).arrow = [.symbol .arrow] := rfl

@[simp] theorem Body.arrow_block (e : Expr) : (Body.block e).arrow = [] := rfl

/-- The parameters of a function. -/
def paramWords (params : List String) : List Word :=
  (params.map Word.name).intersperse (.symbol .comma)

mutual

/-- The words of an expression after which `follow` comes. -/
def Expr.words (parens : Parens) : Follow → Expr → List Word
  | _, .number value _ => [.number value]
  | _, .text value _ => [.token (.str value)]
  | _, .list es _ =>
    .symbol .lbracket :: Expr.wordsJoined parens (.symbol .comma) es ++ [.symbol .rbracket]
  | _, .name name _ => [.name name]
  | f, .assign name value _ =>
    .keyword .var :: .name name :: .symbol .equals ::
      place parens f 0 value (Expr.words parens · value)
  | f, .binary op left right _ =>
    place parens .operator op.leftRank left (Expr.words parens · left) ++
      .symbol op.symbol :: place parens f op.rightRank right (Expr.words parens · right)
  | f, .unary op operand _ =>
    .symbol op.symbol :: place parens f op.rank operand (Expr.words parens · operand)
  | f, .ifThen condition b rest _ =>
    .keyword .if_ :: place parens .closed 0 condition (Expr.words parens · condition) ++
      .keyword .then_ :: Body.words parens (rest.follow f) b ++ Chain.words parens f b.ending rest
  | f, .forTo var start stop by_ b _ =>
    .keyword .for_ :: .name var :: .symbol .equals ::
      place parens .closed 0 start (Expr.words parens · start) ++
      .keyword .to_ :: place parens .closed 0 stop (Expr.words parens · stop) ++
      Expr.stepWords parens by_ ++ .keyword .then_ :: Body.words parens f b ++ b.ending
  | f, .whileDo condition b _ =>
    .keyword .while_ :: place parens .closed 0 condition (Expr.words parens · condition) ++
      .keyword .then_ :: Body.words parens f b ++ b.ending
  | f, .function name params b _ =>
    .keyword .function :: (name.map Word.name).toList ++
      .symbol .lparen :: paramWords params ++ .symbol .rparen :: b.arrow ++
      Body.words parens f b ++ b.ending
  | _, .call callee arguments _ =>
    place parens .operator 9 callee (Expr.words parens · callee) ++
      .symbol .lparen :: Expr.wordsJoined parens (.symbol .comma) arguments ++ [.symbol .rparen]
termination_by structural _ e => e

/-- The words of several expressions with a separator between them. -/
def Expr.wordsJoined (parens : Parens) (separator : Word) : List Expr → List Word
  | [] => []
  | [e] => place parens .closed 0 e (Expr.words parens · e)
  | e :: es =>
    place parens .closed 0 e (Expr.words parens · e) ++
      separator :: Expr.wordsJoined parens separator es
termination_by structural es => es

/-- The words of a step, which may be missing. -/
def Expr.stepWords (parens : Parens) : Option Expr → List Word
  | none => []
  | some e => .keyword .step :: place parens .closed 0 e (Expr.words parens · e)
termination_by structural e => e

/-- The words of a program or a block: one statement a line. Only lists are programs or blocks. -/
def Expr.lines (parens : Parens) : Expr → List Word
  | .list es _ => Expr.wordsJoined parens (.token .newline) es
  | _ => []
termination_by structural e => e

/-- The words of a body, without the `END` of a block. -/
def Body.words (parens : Parens) : Follow → Body → List Word
  | f, .inline e => place parens f 0 e (Expr.words parens · e)
  | _, .block e => .token .newline :: Expr.lines parens e ++ [.token .newline]
termination_by structural _ b => b

/-- The words of what follows a case; `ending` closes the case if nothing does. -/
def Chain.words (parens : Parens) : Follow → List Word → Chain → List Word
  | _, ending, .done => ending
  | f, _, .otherwise b => .keyword .else_ :: Body.words parens f b ++ b.ending
  | f, _, .elif condition b rest =>
    .keyword .elif :: place parens .closed 0 condition (Expr.words parens · condition) ++
      .keyword .then_ :: Body.words parens (rest.follow f) b ++ Chain.words parens f b.ending rest
termination_by structural _ _ chain => chain

end

/-! ### Layout left aside -/

/-- No parentheses at all. -/
def Parens.never : Parens := fun _ _ _ => false

/-- What an expression is made of, layout left aside. -/
def Expr.content (e : Expr) : List Word :=
  strip (e.words .never .closed)

theorem strip_place {parens : Parens} {f : Follow} {least : Nat} {e : Expr}
    {write : Follow → List Word} {ws : List Word} (h : ∀ f, strip (write f) = ws) :
    strip (place parens f least e write) = ws := by
  unfold place
  split
  · simp [h]
  · exact h f

mutual

/-- Layout left aside, the choice of parentheses and what follows do not matter. -/
theorem Expr.strip_words (parens : Parens) (e : Expr) :
    ∀ f, strip (e.words parens f) = e.content := by
  intro f
  unfold Expr.content
  cases e with
  | number value p => rfl
  | text value p => rfl
  | name name p => rfl
  | list es p =>
    simp only [Expr.words, List.cons_append, strip_cons, strip_append,
      Expr.strip_wordsJoined parens _ es]
  | assign name value p =>
    simp only [Expr.words, strip_cons, strip_place (Expr.strip_words parens value),
      strip_place (Expr.strip_words .never value)]
  | binary op left right p =>
    simp only [Expr.words, strip_append, strip_cons, strip_place (Expr.strip_words parens left),
      strip_place (Expr.strip_words .never left), strip_place (Expr.strip_words parens right),
      strip_place (Expr.strip_words .never right)]
  | unary op operand p =>
    simp only [Expr.words, strip_cons, strip_place (Expr.strip_words parens operand),
      strip_place (Expr.strip_words .never operand)]
  | ifThen condition b rest p =>
    simp only [Expr.words, strip_append, strip_cons, List.cons_append,
      strip_place (Expr.strip_words parens condition),
      strip_place (Expr.strip_words .never condition),
      Body.strip_words parens b (rest.follow f) (rest.follow .closed),
      Chain.strip_words parens rest f .closed b.ending]
  | forTo var start stop by_ b p =>
    simp only [Expr.words, strip_append, strip_cons, List.cons_append,
      strip_place (Expr.strip_words parens start), strip_place (Expr.strip_words .never start),
      strip_place (Expr.strip_words parens stop), strip_place (Expr.strip_words .never stop),
      Expr.strip_stepWords parens by_, Body.strip_words parens b f .closed]
  | whileDo condition b p =>
    simp only [Expr.words, strip_append, strip_cons, List.cons_append,
      strip_place (Expr.strip_words parens condition),
      strip_place (Expr.strip_words .never condition), Body.strip_words parens b f .closed]
  | function name params b p =>
    simp only [Expr.words, strip_append, strip_cons, List.cons_append,
      Body.strip_words parens b f .closed]
  | call callee arguments p =>
    simp only [Expr.words, strip_append, strip_cons, strip_place (Expr.strip_words parens callee),
      strip_place (Expr.strip_words .never callee), Expr.strip_wordsJoined parens _ arguments]
termination_by structural e

theorem Expr.strip_wordsJoined (parens : Parens) (separator : Word) (es : List Expr) :
    strip (Expr.wordsJoined parens separator es) =
      strip (Expr.wordsJoined .never separator es) := by
  match es with
  | [] => rfl
  | [e] =>
    simp only [Expr.wordsJoined, strip_place (Expr.strip_words parens e),
      strip_place (Expr.strip_words .never e)]
  | e :: e' :: es =>
    simp only [Expr.wordsJoined, strip_append, strip_cons, strip_place (Expr.strip_words parens e),
      strip_place (Expr.strip_words .never e), Expr.strip_wordsJoined parens separator (e' :: es)]
termination_by structural es

theorem Expr.strip_stepWords (parens : Parens) (by_ : Option Expr) :
    strip (Expr.stepWords parens by_) = strip (Expr.stepWords .never by_) := by
  match by_ with
  | none => rfl
  | some e =>
    simp only [Expr.stepWords, strip_cons, strip_place (Expr.strip_words parens e),
      strip_place (Expr.strip_words .never e)]
termination_by structural by_

theorem Expr.strip_lines (parens : Parens) (e : Expr) :
    strip (e.lines parens) = strip (e.lines .never) := by
  cases e with
  | list es p =>
    simp only [Expr.lines, Expr.strip_wordsJoined parens _ es]
  | _ => rfl
termination_by structural e

theorem Body.strip_words (parens : Parens) (b : Body) (f g : Follow) :
    strip (b.words parens f) = strip (b.words .never g) := by
  cases b with
  | inline e =>
    simp only [Body.words, strip_place (Expr.strip_words parens e),
      strip_place (Expr.strip_words .never e)]
  | block e => simp only [Body.words, strip_append, strip_cons, List.cons_append,
      Expr.strip_lines parens e]
termination_by structural b

theorem Chain.strip_words (parens : Parens) (chain : Chain) (f g : Follow)
    (ending : List Word) :
    strip (chain.words parens f ending) = strip (chain.words .never g ending) := by
  cases chain with
  | done => rfl
  | otherwise b =>
    simp only [Chain.words, strip_append, strip_cons, List.cons_append,
      Body.strip_words parens b f g]
  | elif condition b rest =>
    simp only [Chain.words, strip_append, strip_cons, List.cons_append,
      strip_place (Expr.strip_words parens condition),
      strip_place (Expr.strip_words .never condition),
      Body.strip_words parens b (rest.follow f) (rest.follow g),
      Chain.strip_words parens rest f g b.ending]
termination_by structural chain

end

/-! ### What phrases are made of -/

/-- What is left of tokens, layout left aside. -/
def remains (ts : List Located) : List Word :=
  strip (ts.map Located.word)

@[simp] theorem remains_keyword (word : Keyword) (p : Position) (ts : List Located) :
    remains (⟨.keyword word, p⟩ :: ts) = .keyword word :: remains ts := rfl

@[simp] theorem remains_identifier (name : String) (p : Position) (ts : List Located) :
    remains (⟨.identifier name, p⟩ :: ts) = .name name :: remains ts := rfl

@[simp] theorem remains_newline (p : Position) (ts : List Located) :
    remains (⟨.newline, p⟩ :: ts) = remains ts := rfl

@[simp] theorem remains_symbol (mark : Symbol) (p : Position) (ts : List Located) :
    remains (⟨.symbol mark, p⟩ :: ts) = strip [.symbol mark] ++ remains ts := by
  cases mark <;> rfl

theorem remains_number {token : Token} {value : Float} (p : Position) (ts : List Located)
    (h : token.number? = some value) :
    remains (⟨token, p⟩ :: ts) = .number value :: remains ts := by
  simp only [remains, List.map_cons, Located.word, h, strip_cons, Word.isContent, if_true]

theorem remains_dropWhile (ts : List Located) :
    remains (ts.dropWhile Located.isNewline) = remains ts := by
  induction ts with
  | nil => rfl
  | cons t ts ih =>
    rw [List.dropWhile_cons]
    split
    · next hnewline =>
      obtain ⟨token, p⟩ := t
      obtain rfl : token = .newline := of_decide_eq_true hnewline
      exact ih
    · rfl

/-- What a body is made of. -/
def Body.content (b : Body) : List Word :=
  strip (b.words .never .closed) ++ b.ending

/-- What the branches after a case are made of. -/
def Chain.content (chain : Chain) : List Word :=
  strip (chain.words .never .closed [])

/-- What several expressions are made of. -/
def Expr.contentJoined (separator : Word) (es : List Expr) : List Word :=
  strip (Expr.wordsJoined .never separator es)

/-- What a phrase is made of. -/
@[simp] def Phrase.content : Phrase → List Word
  | expression e | tier _ e | chain _ _ e => e.content
  | statements e => strip (e.lines .never)
  | further es => Expr.contentJoined (.token .newline) es
  | items closing es | separated closing es =>
    Expr.contentJoined (.symbol .comma) es ++ strip [.symbol closing]
  | signature name params => (name.map Word.name).toList ++ strip (paramWords params)
  | body b => b.content
  | functionBody b => b.arrow ++ b.content
  | case condition b rest =>
    condition.content ++ .keyword .then_ :: strip (b.words .never .closed) ++
      strip (rest.words .never .closed b.ending)
  | after rest => rest.content
  | step by_ => strip (Expr.stepWords .never by_)

/-- What has been read before the text of a phrase begins: only a chain has something on its
left. -/
@[simp] def Phrase.given : Phrase → List Word
  | chain _ left _ => left.content
  | _ => []

/-- The tokens of a phrase account for it. -/
@[simp] def Phrase.Accounts (phrase : Phrase) (ts rest : List Located) : Prop :=
  phrase.given ++ remains ts = phrase.content ++ remains rest

section content

variable (p : Position)

@[simp] theorem Expr.strip_place (parens : Parens) (f : Follow) (least : Nat) (e : Expr) :
    strip (place parens f least e fun g => Expr.words parens g e) = e.content :=
  LineScript.strip_place (Expr.strip_words parens e)

@[simp] theorem Expr.content_list (es : List Expr) : (Expr.list es p).content =
    .symbol .lbracket :: Expr.contentJoined (.symbol .comma) es ++ [.symbol .rbracket] := by
  simp [Expr.content, Expr.words, Expr.contentJoined]

@[simp] theorem Expr.content_assign (name : String) (value : Expr) :
    (Expr.assign name value p).content =
      .keyword .var :: .name name :: .symbol .equals :: value.content := by
  simp [Expr.content, Expr.words]

@[simp] theorem Expr.content_binary (op : BinaryOperator) (left right : Expr) :
    (Expr.binary op left right p).content =
      left.content ++ .symbol op.symbol :: right.content := by
  simp [Expr.content, Expr.words]

@[simp] theorem Expr.content_unary (op : UnaryOperator) (operand : Expr) :
    (Expr.unary op operand p).content = .symbol op.symbol :: operand.content := by
  simp [Expr.content, Expr.words]

@[simp] theorem Expr.content_ifThen (condition : Expr) (b : Body) (rest : Chain) :
    (Expr.ifThen condition b rest p).content =
      .keyword .if_ :: (Phrase.case condition b rest).content := by
  simp [Expr.content, Expr.words, Phrase.content,
    Body.strip_words .never b (rest.follow .closed) .closed]

@[simp] theorem Expr.content_forTo (var : String) (start stop : Expr) (by_ : Option Expr)
    (b : Body) :
    (Expr.forTo var start stop by_ b p).content =
      .keyword .for_ :: .name var :: .symbol .equals :: start.content ++
      .keyword .to_ :: stop.content ++ (Phrase.step by_).content ++
      .keyword .then_ :: b.content := by
  cases b <;> simp [Expr.content, Expr.words, Phrase.content, Body.content]

@[simp] theorem Expr.content_whileDo (condition : Expr) (b : Body) :
    (Expr.whileDo condition b p).content =
      .keyword .while_ :: condition.content ++ .keyword .then_ :: b.content := by
  cases b <;> simp [Expr.content, Expr.words, Body.content]

@[simp] theorem Expr.content_function (name : Option String) (params : List String) (b : Body) :
    (Expr.function name params b p).content =
      .keyword .function :: (Phrase.signature name params).content ++
        (Phrase.functionBody b).content := by
  cases b <;> cases name <;> simp [Expr.content, Expr.words, Phrase.content,
    Body.content]

@[simp] theorem Expr.content_call (callee : Expr) (arguments : List Expr) :
    (Expr.call callee arguments p).content =
      callee.content ++ Expr.contentJoined (.symbol .comma) arguments := by
  simp [Expr.content, Expr.words, Expr.contentJoined]

end content

/-! ### Conservation -/

@[simp] theorem Body.strip_ending (b : Body) : strip b.ending = b.ending := by
  cases b <;> rfl

@[simp] theorem Expr.contentJoined_nil (separator : Word) : Expr.contentJoined separator [] = [] :=
  rfl

@[simp] theorem Expr.contentJoined_singleton (separator : Word) (e : Expr) :
    Expr.contentJoined separator [e] = e.content := by
  simp [Expr.contentJoined, Expr.wordsJoined]

@[simp] theorem Expr.strip_lines_list (es : List Expr) (p : Position) :
    strip ((Expr.list es p).lines .never) = Expr.contentJoined (.token .newline) es := rfl

/-- Statements follow each other without a trace of what separates them. -/
@[simp] theorem Expr.contentJoined_newline (e : Expr) (es : List Expr) :
    Expr.contentJoined (.token .newline) (e :: es) =
      e.content ++ Expr.contentJoined (.token .newline) es := by
  cases es <;> simp [Expr.contentJoined, Expr.wordsJoined]

theorem Expr.contentJoined_comma (e : Expr) {es : List Expr} (h : es ≠ []) :
    Expr.contentJoined (.symbol .comma) (e :: es) =
      e.content ++ .symbol .comma :: Expr.contentJoined (.symbol .comma) es := by
  cases es with
  | nil => exact absurd rfl h
  | cons e' es => simp [Expr.contentJoined, Expr.wordsJoined]

theorem Reads.items_ne_nil {closing : Symbol} {es : List Expr} {ts rest : List Located}
    (h : Reads (.items closing es) ts rest) : es ≠ [] := by
  cases h <;> nofun

/-- A case that is followed by a further branch has no `END` of its own. -/
theorem Chain.strip_words_of_ne_done {chain : Chain} (ending : List Word) (h : chain ≠ .done) :
    strip (chain.words .never .closed ending) = chain.content := by
  cases chain with
  | done => exact absurd rfl h
  | otherwise b => rfl
  | elif condition b rest => rfl

/-- Parameters and the commas between them. -/
theorem remains_of_listed {params : List String} {ts rest : List Located}
    (h : Listed IsName .rparen params ts rest) :
    remains ts = strip (paramWords params) ++ remains rest := by
  induction h with
  | last hitem =>
    obtain ⟨p, rfl⟩ := hitem
    rfl
  | @more name names q ts mid rest hitem hrest ih =>
    obtain ⟨p, rfl⟩ := hitem
    rw [remains_identifier, remains_symbol, ih]
    cases hrest <;> rfl

section

variable {e : Expr}

@[simp] theorem Body.content_inline : (Body.inline e).content = e.content := by
  simp [Body.content, Body.words]

@[simp] theorem Body.content_block :
    (Body.block e).content = strip (e.lines .never) ++ [.keyword .end_] := by
  simp [Body.content, Body.words]

@[simp] theorem Body.strip_words_inline (f : Follow) :
    strip ((Body.inline e).words .never f) = e.content := by
  simp [Body.words]

@[simp] theorem Body.strip_words_block (f : Follow) :
    strip ((Body.block e).words .never f) = strip (e.lines .never) := by
  simp [Body.words]

end

@[simp] theorem Chain.content_otherwise (b : Body) :
    (Chain.otherwise b).content = .keyword .else_ :: b.content := by
  simp [Chain.content, Chain.words, Body.content]

@[simp] theorem Chain.content_elif (condition : Expr) (b : Body) (rest : Chain) :
    (Chain.elif condition b rest).content =
      .keyword .elif :: (Phrase.case condition b rest).content := by
  simp [Chain.content, Chain.words, Phrase.content,
    Body.strip_words .never b (rest.follow .closed) .closed]

/-- **Conservation.** The tokens of a phrase are what the phrase is made of. -/
theorem Reads.accounts {phrase : Phrase} {ts rest : List Located} (h : Reads phrase ts rest) :
    phrase.Accounts ts rest := by
  -- the words of the phrase itself are found in front, and the hypotheses account for its parts
  induction h with
  | assign hvalue ih => simp_all
  | logical he ih => exact ih
  | unary he ih => simp_all
  | operators hloose hfirst hchain ih ih' => simp_all
  | link haccepts hright hchain ih ih' => simp_all
  | stop hends => rfl
  | call hcallee harguments ih ih' => simp_all
  | number hvalue => exact remains_number _ _ hvalue
  | text => rfl
  | name => rfl
  | grouping he ih => simp_all
  | list hes ih => simp_all
  | conditional hcase ih => simp_all
  | forTo hstart hstop hstep hbody ih₁ ih₂ ih₃ ih₄ => simp_all
  | whileDo hcondition hbody ih ih' => simp_all
  | function hsignature hbody ih ih' => simp_all
  | named hparams ih => simp_all
  | noParams => rfl
  | params hparams => simp [remains_of_listed hparams]
  | arrow he ih => simp_all
  | functionBlock he ih => simp_all
  | inline he ih => simp_all
  | block he ih => simp_all
  | inlineCase hcondition he hchain ih₁ ih₂ ih₃ => simp_all [Chain.content]
  | lastBlock hcondition he ih ih' => simp_all [Chain.words]
  | blockCase hcondition he hmore hchain ih₁ ih₂ ih₃ =>
    simp_all [Chain.strip_words_of_ne_done _ hmore]
  | elif hcase ih => simp_all
  | otherwise hbody ih => simp_all
  | done hnoElif hnoElse => rfl
  | step he ih => simp_all [Expr.stepWords]
  | noStep hends => rfl
  | statements he hes ih ih' => simp_all [remains_dropWhile]
  | further he hes ih ih' => simp_all [remains_dropWhile]
  | noFurther hends => simp [remains_dropWhile]
  | noItems => simp
  | items hes ih => exact ih
  | last he ih => simp_all
  | more he hes ih ih' => simp_all [Expr.contentJoined_comma _ hes.items_ne_nil]

/-- No token is lost, invented or reordered: the tokens of an accepted program, parentheses and
separators left aside, are the words of its tree in the same order. -/
theorem parse_conserves_words (parens : Parens) (tokens : List Located) (tree : Expr)
    (hend : EndsOnce tokens) (h : (parse tokens).1 = .value tree) :
    strip (tokens.map Located.word) = strip (tree.lines parens) := by
  obtain ⟨rest, hread, honce⟩ := readsProgram_of_parse hend.1 h
  obtain rfl := honce hend
  -- after the program there is only the end of input, and that is layout
  show remains tokens = _
  rw [Expr.strip_lines]
  cases hread with
  | @empty p tokens rest hskip =>
    rw [← remains_dropWhile, hskip]
    rfl
  | @statements tree p tokens rest htree =>
    have haccounts : remains tokens = strip (tree.lines .never) ++ remains [⟨.eof, p⟩] := by
      simpa using htree.accounts
    rw [haccounts]
    exact List.append_nil _

/-- A conditional with an inline branch between two blocks. -/
def mixedConditional : List Located :=
  atStart [.newline, .keyword .if_, .identifier "a", .keyword .then_, .newline, .identifier "b",
    .newline, .keyword .elif, .identifier "c", .keyword .then_, .int "1", .keyword .else_, .newline,
    .symbol .lparen, .identifier "d", .symbol .rparen, .newline, .newline, .keyword .end_, .eof]

/-- The tree of the conditional holds each of its words once; the parentheses and separators are
gone. -/
theorem mixed_conditional_conserved :
    let p := Position.start
    let block := fun name => Body.block (.list [.name name p] p)
    let value := Number.scientific 1 0
    let tree := Expr.list [.ifThen (.name "a" p) (block "b")
      (.elif (.name "c" p) (.inline (.number value p)) (.otherwise (block "d"))) p] p
    EndsOnce mixedConditional ∧ (parse mixedConditional).1 = .value tree ∧
      strip (mixedConditional.map Located.word) =
        [.keyword .if_, .name "a", .keyword .then_, .name "b", .keyword .elif, .name "c",
          .keyword .then_, .number value, .keyword .else_, .name "d", .keyword .end_] := by
  intro p block value tree
  have hend : EndsOnce mixedConditional := ⟨⟨mixedConditional.dropLast, p, rfl⟩, by decide⟩
  have htree : (parse mixedConditional).1 = .value tree := rfl
  exact ⟨hend, htree, parse_conserves_words .never mixedConditional tree hend htree⟩

end LineScript
