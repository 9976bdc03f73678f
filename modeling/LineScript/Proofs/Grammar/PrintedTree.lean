import LineScript.Proofs.Grammar.FullParens
import LineScript.Expr.Printer

/-!
# Printed trees read back

A printed tree is a text of the language: the pieces it is put together from are read as its words,
one after the other, and the words are a text of the tree.

  * `Opens text`: the text begins with a character that no operator before it goes on with.
  * `Expr.Written`: the printed expression opens and is read as its words with all parentheses,
    before everything that delimits it.
  * `Tail`: a part that may be missing, such as the step of a loop. If it is there it begins with a
    blank.
  * `render_reads_back`: the printed tree is a program of one statement, the tree itself.

Every piece is read before whatever may come after it. What may come after a name, a number or an
operator is said by the class of the next character; that is why a piece is known by how it begins.
-/

namespace LineScript

open Lexer Lexicon

/-! ### How pieces begin -/

/-- The text is not empty and begins with a character of the class. -/
def Begins (first : Char → Prop) (text : String) : Prop :=
  ∃ c cs, text.toList = c :: cs ∧ first c

/-- The text begins with a character that does not join into operators. -/
abbrev Opens : String → Prop := Begins fun c => ¬ Joining c

section beginnings

variable {first : Char → Prop} {text : String} {c : Char} {cs : List Char}

/-- What comes later does not matter. -/
theorem Begins.append (h : Begins first text) (text' : String) : Begins first (text ++ text') := by
  obtain ⟨c, cs, htext, hc⟩ := h
  refine ⟨c, cs ++ text'.toList, ?_, hc⟩
  rw [String.toList_append, htext]
  rfl

theorem Begins.meets (h : Begins first text) : Meets first text := by
  obtain ⟨c, cs, htext, hc⟩ := h
  intro d hd
  rw [htext] at hd
  cases hd
  exact hc

theorem opens_of_isNameStart (h : isNameStart c = true) : Opens (String.ofList (c :: cs)) :=
  ⟨c, cs, String.toList_ofList, fun hc => hc.apart.2.2 h⟩

theorem opens_of_isDigit (h : c.isDigit = true) : Opens (String.ofList (c :: cs)) :=
  ⟨c, cs, String.toList_ofList, fun hc => hc.apart.1 h⟩

theorem IsIdentifier.opens (h : IsIdentifier text) : Opens text := by
  obtain ⟨c, cs, rfl, hc, _⟩ := h.shape
  exact opens_of_isNameStart hc

theorem IsLiteral.opens (h : IsLiteral text) : Opens text := by
  cases h with
  | @whole digits hsome hdigits =>
    obtain ⟨c, cs, rfl⟩ := List.exists_cons_of_ne_nil hsome
    exact opens_of_isDigit (List.all_eq_true.mp hdigits c List.mem_cons_self)
  | @point digits fraction hsome hdigits _ =>
    obtain ⟨c, cs, rfl⟩ := List.exists_cons_of_ne_nil hsome
    exact opens_of_isDigit (List.all_eq_true.mp hdigits c List.mem_cons_self)

end beginnings

theorem opens_lparen : Opens "(" :=
  ⟨'(', [], rfl, not_joining_iff.mpr rfl⟩

theorem opens_opening (word : Keyword) : Opens ("(" ++ (word.spelling ++ " ")) :=
  opens_lparen.append _

/-- A keyword between blanks ends what comes before it. -/
theorem begins_keyword (word : Keyword) : Begins Delimiter (" " ++ (word.spelling ++ " ")) :=
  have hblank : Begins Delimiter " " := ⟨' ', [], rfl, delimiter_blank⟩
  hblank.append _

/-! ### What is written -/

/-- The printed expression opens, and is read as its words with all parentheses. -/
structure Expr.Written (e : Expr) : Prop where
  /-- No operator before it goes on with it. -/
  opens : Opens e.render
  /-- It is read as its words. -/
  writes : Writes Delimiter e.render e.fullWords

/-- A part that may be missing. -/
structure Tail (text : String) (words : List Word) : Prop where
  /-- Nothing before it goes on with it. -/
  meets : Meets Delimiter text
  /-- It is read as its words. -/
  writes : Writes Delimiter text words

/-- The body is on the same line and is read as its words. -/
def Body.Written : Body → Prop
  | inline e => e.Written
  | block _ => False

theorem tail_empty : Tail "" [] :=
  ⟨meets_empty, writes_empty⟩

section pieces

variable {stop : Char → Prop} {text text' : String} {ws ws' : List Word}

/-- A part that may be missing, after a piece that ends at delimiters. -/
theorem Writes.tail (h : Writes Delimiter text ws) (h' : Tail text' ws') :
    Writes Delimiter (text ++ text') (ws ++ ws') :=
  h.append h'.writes fun _ hrest => meets_append h'.meets hrest

/-- The same piece, said in another way. -/
theorem Writes.of_eq (h : Writes stop text ws) (htext : text = text') (hws : ws = ws') :
    Writes stop text' ws' := by
  rw [← htext, ← hws]
  exact h

/-- A closing parenthesis. -/
theorem Writes.rparen (h : Writes Delimiter text ws) :
    Writes Delimiter (text ++ ")") (ws ++ [.symbol .rparen]) := by
  exact (h.before writes_rparen rfl (by decide)).mono fun _ _ => trivial

end pieces

/-- Several texts with commas between them. -/
theorem writes_joined {α : Type} {render : α → String} {words : α → List Word} {as : List α}
    (h : ∀ a ∈ as, Writes Delimiter (render a) (words a)) :
    Writes Delimiter (", ".intercalate (as.map render))
      ((as.map words).intersperse [.symbol .comma]).flatten := by
  have hcomma : Writes AnyChar ", " [.symbol .comma] := writes_symbol_blank .comma
  induction as with
  | nil => exact writes_empty
  | cons a as ih =>
    obtain ⟨ha, has⟩ := List.forall_mem_cons.mp h
    cases as with
    | nil =>
      simp only [List.map_cons, List.map_nil, String.intercalate_singleton,
        List.intersperse_singleton, List.flatten_cons, List.flatten_nil, List.append_nil]
      exact ha
    | cons b as =>
      have hrest := (ha.before hcomma rfl (by decide)).then (ih has)
      simp only [List.map_cons, String.intercalate_cons_cons, List.intersperse_cons_cons,
        List.flatten_cons] at hrest ⊢
      rw [← List.append_assoc]
      exact hrest

/-! ### Names, literals and operators -/

theorem written_number {x : Float} (h : Number.Unsigned x) (p : Position) :
    (Expr.number x p).Written := by
  obtain ⟨hliteral, hread⟩ := h.reads_back
  constructor
  · exact hliteral.opens
  · apply (writes_literal hliteral hread).mono
    intro c hc
    exact ⟨fun hdigit => hc.name (.inr (.inl hdigit)), hc.point⟩

theorem written_text {value : String} (h : ∀ c ∈ value.toList, Text.Plain c) (p : Position) :
    (Expr.text value p).Written := by
  constructor
  · show Opens (Text.quote value)
    unfold Text.quote
    exact ⟨'"', _, String.toList_ofList, not_joining_iff.mpr rfl⟩
  · exact (writes_quote h).mono fun _ _ => trivial

theorem written_name {name : String} (h : IsIdentifier name) (p : Position) :
    (Expr.name name p).Written :=
  ⟨h.opens, (writes_name h).mono fun _ hc => hc.name⟩

/-- A compound expression is written as an opening parenthesis, what it holds, and a closing one. -/
theorem Expr.written_of_inner {e : Expr} (hcompound : e.isCompound) {inner : String}
    (hrender : e.render = inner ++ ")") (hopens : Opens inner)
    (hinner : Writes Delimiter inner (.symbol .lparen :: e.words .full .closed)) : e.Written := by
  refine ⟨?_, ?_⟩
  · rw [hrender]
    exact hopens.append ")"
  · rw [hrender, Expr.fullWords_of_isCompound hcompound]
    exact hinner.rparen

/-- A name and a sign of equality, after a keyword. -/
theorem writes_binding (word : Keyword) {name : String} (h : IsIdentifier name) :
    Writes AnyChar ("(" ++ (word.spelling ++ " ") ++ name ++ (" " ++ (Symbol.equals.spelling ++ " ")))
      [.symbol .lparen, .keyword word, .name name, .symbol .equals] :=
  ((writes_opening word).then (writes_name h)).before (writes_symbol_between .equals) rfl
    delimiter_blank.name

theorem written_assign {name : String} {value : Expr} (hname : IsIdentifier name)
    (hvalue : value.Written) (p : Position) : (Expr.assign name value p).Written := by
  apply Expr.written_of_inner rfl rfl
  · exact ((opens_opening .var).append name).append _ |>.append _
  · simp only [Expr.words, place_full]
    exact (writes_binding .var hname).then hvalue.writes

theorem written_binary {left right : Expr} (hleft : left.Written) (hright : right.Written)
    (op : BinaryOperator) (p : Position) : (Expr.binary op left right p).Written := by
  apply Expr.written_of_inner rfl rfl
  · exact opens_lparen.append _ |>.append _ |>.append _ |>.append _ |>.append _
  · have hoperand := (writes_lparen.then hleft.writes).before writes_blank rfl delimiter_blank
    have hoperator := (hoperand.then (writes_symbol op.symbol)).before writes_blank rfl
      delimiter_blank.operator
    exact (hoperator.then hright.writes).of_eq rfl (by simp [Expr.words, place_full])

theorem written_unary {operand : Expr} (h : operand.Written) (op : UnaryOperator) (p : Position) :
    (Expr.unary op operand p).Written := by
  apply Expr.written_of_inner rfl rfl
  · exact opens_lparen.append _ |>.append _
  · -- the operand follows the operator without a blank
    obtain ⟨c, cs, htext, hc⟩ := h.opens
    simp only [Expr.words, place_full]
    exact (writes_lparen.then (writes_symbol op.symbol)).before h.writes htext hc

/-! ### Lists and calls -/

theorem Expr.renderEach_eq_map (es : List Expr) : Expr.renderEach es = es.map Expr.render := by
  induction es with
  | nil => rfl
  | cons e es ih =>
    show e.render :: Expr.renderEach es = _
    rw [ih]
    rfl

/-- Several expressions with separators between them, each in its place. -/
theorem Expr.wordsJoined_eq (parens : Parens) (separator : Word) (es : List Expr) :
    Expr.wordsJoined parens separator es =
      ((es.map fun e => place parens .closed 0 e (Expr.words parens · e)).intersperse
        [separator]).flatten := by
  induction es with
  | nil => rfl
  | cons e es ih =>
    cases es with
    | nil => simp [Expr.wordsJoined]
    | cons a es =>
      rw [Expr.wordsJoined, ih]
      · simp
      · nofun

theorem writes_expressions {es : List Expr} (h : ∀ e ∈ es, e.Written) :
    Writes Delimiter (", ".intercalate (Expr.renderEach es))
      (Expr.wordsJoined .full (.symbol .comma) es) := by
  rw [Expr.renderEach_eq_map, Expr.wordsJoined_eq]
  simp only [place_full]
  exact writes_joined fun e he => (h e he).writes

theorem written_list {es : List Expr} (h : ∀ e ∈ es, e.Written) (p : Position) :
    (Expr.list es p).Written := by
  constructor
  · show Opens ("[" ++ _ ++ "]")
    have hopens : Opens "[" := ⟨'[', [], rfl, not_joining_iff.mpr rfl⟩
    exact (hopens.append _).append _
  · rw [Expr.fullWords_of_not_isCompound rfl, Expr.words]
    have hitems := writes_lbracket.then (writes_expressions h)
    exact (hitems.before writes_rbracket rfl (by decide)).mono fun _ _ => trivial

theorem written_call {callee : Expr} {arguments : List Expr} (hcallee : callee.Written)
    (harguments : ∀ e ∈ arguments, e.Written) (p : Position) :
    (Expr.call callee arguments p).Written := by
  constructor
  · exact ((hcallee.opens.append _).append _).append _
  · rw [Expr.fullWords_of_not_isCompound rfl, Expr.words, place_full]
    have hopened := hcallee.writes.before writes_lparen rfl (by decide)
    rw [List.append_assoc, List.cons_append]
    exact (hopened.then (writes_expressions harguments)).rparen.of_eq rfl (by simp)

/-! ### Bodies, loops and functions -/

theorem Body.Written.writes {b : Body} (h : b.Written) (f : Follow) :
    Writes Delimiter b.render (b.words .full f ++ b.ending) := by
  cases b with
  | block e => cases h
  | inline e =>
    rw [Body.words, place_full, Body.ending_inline, List.append_nil]
    exact Expr.Written.writes h

theorem tail_step {by_ : Option Expr} (h : ∀ e ∈ by_, e.Written) :
    Tail (Expr.renderStep by_) (Expr.stepWords .full by_) := by
  cases by_ with
  | none => exact tail_empty
  | some e =>
    rw [Expr.stepWords, place_full]
    have hwrites := (writes_keyword_between .step).then (h e rfl).writes
    exact ⟨((begins_keyword .step).append e.render).meets, hwrites⟩

theorem written_forTo {start stop : Expr} {by_ : Option Expr} {b : Body} {var : String}
    (hvar : IsIdentifier var) (hstart : start.Written) (hstop : stop.Written)
    (hstep : ∀ e ∈ by_, e.Written) (hbody : b.Written) (p : Position) :
    (Expr.forTo var start stop by_ b p).Written := by
  apply Expr.written_of_inner rfl rfl
  · exact (opens_opening .for_).append _ |>.append _ |>.append _ |>.append _ |>.append _
      |>.append _ |>.append _ |>.append _
  · have hfirst := (writes_binding .for_ hvar).then hstart.writes
    have hlast := ((hfirst.before (writes_keyword_between .to_) rfl delimiter_blank).then
      hstop.writes).tail (tail_step hstep)
    have hall := (hlast.before (writes_keyword_between .then_) rfl delimiter_blank).then
      (hbody.writes .closed)
    exact hall.of_eq rfl (by simp [Expr.words, place_full])

theorem written_whileDo {condition : Expr} {b : Body} (hcondition : condition.Written)
    (hbody : b.Written) (p : Position) : (Expr.whileDo condition b p).Written := by
  apply Expr.written_of_inner rfl rfl
  · exact (opens_opening .while_).append _ |>.append _ |>.append _
  · have htested := (writes_opening .while_).then hcondition.writes
    have hall := (htested.before (writes_keyword_between .then_) rfl delimiter_blank).then
      (hbody.writes .closed)
    exact hall.of_eq rfl (by simp [Expr.words, place_full])

theorem paramWords_eq (params : List String) :
    paramWords params =
      ((params.map fun name => [Word.name name]).intersperse [.symbol .comma]).flatten := by
  unfold paramWords
  induction params with
  | nil => rfl
  | cons name names ih =>
    cases names with
    | nil => rfl
    | cons other names =>
      simp only [List.map_cons, List.intersperse_cons_cons, List.flatten_cons] at ih ⊢
      rw [ih]
      rfl

theorem writes_params {params : List String} (h : ∀ text ∈ params, IsIdentifier text) :
    Writes Delimiter (", ".intercalate params) (paramWords params) := by
  have hname (text : String) (htext : text ∈ params) : Writes Delimiter (id text) [.name text] :=
    (writes_name (h text htext)).mono fun _ hc => hc.name
  rw [paramWords_eq, ← List.map_id params]
  have hjoined := writes_joined hname
  rw [List.map_id] at hjoined ⊢
  exact hjoined

theorem writes_optionalName {name : Option String} (h : ∀ text ∈ name, IsIdentifier text) :
    Writes Delimiter (name.getD "") (name.map Word.name).toList := by
  cases name with
  | none => exact writes_empty
  | some text => exact (writes_name (h text rfl)).mono fun _ hc => hc.name

theorem written_function {name : Option String} {params : List String} {b : Body}
    (hname : ∀ text ∈ name, IsIdentifier text) (hparams : ∀ text ∈ params, IsIdentifier text)
    (hbody : b.Written) (p : Position) : (Expr.function name params b p).Written := by
  apply Expr.written_of_inner rfl rfl
  · exact (opens_opening .function).append _ |>.append _ |>.append _ |>.append _ |>.append _
  · have hopened := ((writes_opening .function).then (writes_optionalName hname)).before
      writes_lparen rfl (by decide)
    have hsignature := (hopened.then (writes_params hparams)).before
      (writes_rparen.then (writes_symbol_between .arrow)) rfl (by decide)
    have hall := hsignature.then (hbody.writes .closed)
    -- the arrow is only written before a body on the same line
    cases b with
    | block e => cases hbody
    | inline e => exact hall.of_eq rfl (by simp [Expr.words])

/-! ### Conditionals -/

/-- The parts of the branches are read as their words. -/
def Chain.Written : Chain → Prop
  | done => True
  | otherwise b => b.Written
  | elif condition b rest => condition.Written ∧ b.Written ∧ rest.Written

theorem Body.Written.ending {b : Body} (h : b.Written) : b.ending = [] := by
  cases b with
  | inline e => rfl
  | block e => cases h

/-- A case and the branches after it, after its `IF` or `ELIF`. -/
theorem writes_case {before : String} {ws : List Word} (hbefore : Writes AnyChar before ws)
    {condition : Expr} {b : Body} (hcondition : condition.Written) (hbody : b.Written)
    {text : String} {words : List Word} (htail : Tail text words) (f : Follow) :
    Writes Delimiter (before ++ condition.render ++ " THEN " ++ b.render ++ text)
      (ws ++ condition.fullWords ++ .keyword .then_ :: (b.words .full f ++ words)) := by
  have htested := (hbefore.then hcondition.writes).before (writes_keyword_between .then_) rfl
    delimiter_blank
  have hcase := (htested.then (hbody.writes f)).tail htail
  exact hcase.of_eq rfl (by simp [hbody.ending])

theorem tail_chain (chain : Chain) (h : chain.Written) :
    Tail chain.render (chain.words .full .closed []) := by
  match chain with
  | .done => exact tail_empty
  | .otherwise b =>
    have hwrites := (writes_keyword_between .else_).then (Body.Written.writes h .closed)
    exact ⟨((begins_keyword .else_).append b.render).meets, hwrites⟩
  | .elif condition b rest =>
    obtain ⟨hcondition, hbody, hrest⟩ := h
    have hcase := writes_case (writes_keyword_between .elif) hcondition hbody
      (tail_chain rest hrest) (rest.follow .closed)
    refine ⟨?_, hcase.of_eq rfl (by simp [Chain.words, place_full, hbody.ending])⟩
    exact (begins_keyword .elif).append _ |>.append _ |>.append _ |>.append _ |>.meets
termination_by structural chain

theorem written_ifThen {condition : Expr} {b : Body} {chain : Chain}
    (hcondition : condition.Written) (hbody : b.Written) (hchain : chain.Written) (p : Position) :
    (Expr.ifThen condition b chain p).Written := by
  apply Expr.written_of_inner rfl rfl
  · exact (opens_opening .if_).append _ |>.append _ |>.append _ |>.append _
  · have hcase := writes_case (writes_opening .if_) hcondition hbody (tail_chain chain hchain)
      (chain.follow .closed)
    exact hcase.of_eq rfl (by simp [Expr.words, place_full, hbody.ending])

/-! ### All trees -/

mutual

/-- A printed tree of the class is read as its words. -/
theorem Expr.Printable.written (e : Expr) (h : e.Printable) : e.Written := by
  match e with
  | .number value p => exact written_number h p
  | .text value p => exact written_text h p
  | .list es p => exact written_list (Expr.AllPrintable.written es h) p
  | .name name p => exact written_name h p
  | .assign name value p => exact written_assign h.1 (Expr.Printable.written value h.2) p
  | .binary op left right p =>
    exact written_binary (Expr.Printable.written left h.1) (Expr.Printable.written right h.2) op p
  | .unary op operand p => exact written_unary (Expr.Printable.written operand h) op p
  | .ifThen condition b rest p =>
    exact written_ifThen (Expr.Printable.written condition h.1) (Body.Printable.written b h.2.1)
      (Chain.Printable.written rest h.2.2) p
  | .forTo var start stop by_ b p =>
    obtain ⟨hvar, hstart, hstop, hby, hb⟩ := h
    exact written_forTo hvar (Expr.Printable.written start hstart)
      (Expr.Printable.written stop hstop) (Expr.StepPrintable.written by_ hby)
      (Body.Printable.written b hb) p
  | .whileDo condition b p =>
    exact written_whileDo (Expr.Printable.written condition h.1) (Body.Printable.written b h.2) p
  | .function name params b p =>
    obtain ⟨hname, hparams, hb⟩ := h
    exact written_function hname hparams (Body.Printable.written b hb) p
  | .call callee arguments p =>
    exact written_call (Expr.Printable.written callee h.2.1)
      (Expr.AllPrintable.written arguments h.2.2) p
termination_by structural e

theorem Expr.AllPrintable.written (es : List Expr) (h : Expr.AllPrintable es) :
    ∀ e ∈ es, e.Written := by
  match es with
  | [] => nofun
  | e :: es =>
    exact List.forall_mem_cons.mpr
      ⟨Expr.Printable.written e h.1, Expr.AllPrintable.written es h.2⟩
termination_by structural es

theorem Expr.StepPrintable.written (by_ : Option Expr) (h : Expr.StepPrintable by_) :
    ∀ e ∈ by_, e.Written := by
  match by_ with
  | none => nofun
  | some e =>
    rintro _ ⟨⟩
    exact Expr.Printable.written e h
termination_by structural by_

theorem Body.Printable.written (b : Body) (h : b.Printable) : b.Written := by
  match b with
  | .inline e => exact Expr.Printable.written e h
termination_by structural b

theorem Chain.Printable.written (chain : Chain) (h : chain.Printable) : chain.Written := by
  match chain with
  | .done => trivial
  | .otherwise b => exact Body.Printable.written b h
  | .elif condition b rest =>
    exact ⟨Expr.Printable.written condition h.1, Body.Printable.written b h.2.1,
      Chain.Printable.written rest h.2.2⟩
termination_by structural chain

end

/-- **Printed trees read back.** A printed tree of the class is a program of one statement, and the
statement is the tree, up to the places in it. -/
theorem render_reads_back (t : Expr) (h : t.Printable) :
    ∃ (tokens : List Located) (t' : Expr) (p : Position), tokenize t.render = .ok tokens ∧
      (parse tokens).1 = .value (.list [t'] p) ∧ t'.Alike t := by
  obtain ⟨q, ts, hwords, htokens⟩ := (Expr.Printable.written t h).writes.tokenize
  obtain ⟨t', p, halike, hparse⟩ := parse_fullWords h q hwords
  exact ⟨_, t', p, htokens, hparse, halike⟩

/-- A function with a conditional, a fraction, quotes in a string, a list and a call. -/
def quotingFunction : Expr :=
  let p : Position := .start
  let x : Expr := .name "x" p
  .function (some "f") ["x"] (.inline (.ifThen (.binary .less x (.number 0.5 p) p)
    (.inline (.text "a \"b\"" p))
    (.otherwise (.inline (.list [x, .call (.name "f" p) [.unary .negate x p] p] p))) p)) p

theorem printable_quotingFunction : quotingFunction.Printable := by
  have hf : IsIdentifier "f" := ⟨⟨'f', [], rfl, rfl, rfl⟩, rfl⟩
  have hx : IsIdentifier "x" := ⟨⟨'x', [], rfl, rfl, rfl⟩, rfl⟩
  have hnumber : Number.Unsigned 0.5 := ⟨rfl, by decide⟩
  have hchars : ("a \"b\"".toList.all fun c => Text.Plain c) = true := by decide
  have htext : ∀ c ∈ "a \"b\"".toList, Text.Plain c :=
    fun c hc => of_decide_eq_true (List.all_eq_true.mp hchars c hc)
  exact ⟨fun _ hname => Option.some.inj hname ▸ hf, List.forall_mem_singleton.mpr hx,
    ⟨hx, hnumber⟩, htext, hx, ⟨rfl, hf, hx, trivial⟩, trivial⟩

/-- The quotes in the string are escaped, and the text is read back. -/
theorem quotingFunction_reads_back :
    quotingFunction.render =
        "(FUNCTION f(x) => (IF (x < 0.5) THEN \"a \\\"b\\\"\" ELSE [x, f((-x))]))" ∧
      ∃ (tokens : List Located) (t' : Expr) (p : Position),
        tokenize quotingFunction.render = .ok tokens ∧
          (parse tokens).1 = .value (.list [t'] p) ∧ t'.Alike quotingFunction :=
  ⟨by decide +kernel, render_reads_back quotingFunction printable_quotingFunction⟩

end LineScript
