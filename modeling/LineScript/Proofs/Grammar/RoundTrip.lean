import LineScript.Proofs.Grammar.Printing

/-!
# Printing and reading back

The parser inverts the printer: a well-formed program that is printed with the parentheses it needs
is read back as the same program, up to the places in it. And it reads nothing but well-formed
programs.

  * `Word.Spelled` says that there is a token of one of the known shapes for a word. All words of a
    well-formed tree have one.
  * `Expr.printout` is a program as it is printed with the parentheses it needs; `parse_printout`
    reads it back.
-/

namespace LineScript

/-! ### Spelling -/

/-- A token of one of the known shapes is this word. -/
def Word.Spelled (w : Word) : Prop :=
  ∃ token : Token, token.Lexical ∧ Located.word ⟨token, .start⟩ = w

/-- All of the words can be spelled. -/
def AllSpelled (ws : List Word) : Prop :=
  ∀ w ∈ ws, w.Spelled

@[simp] theorem allSpelled_nil : AllSpelled [] := nofun

@[simp] theorem allSpelled_cons {w : Word} {ws : List Word} :
    AllSpelled (w :: ws) ↔ w.Spelled ∧ AllSpelled ws :=
  List.forall_mem_cons

@[simp] theorem allSpelled_append {ws vs : List Word} :
    AllSpelled (ws ++ vs) ↔ AllSpelled ws ∧ AllSpelled vs :=
  List.forall_mem_append

/-- What can be spelled word by word is the words of some tokens. -/
theorem AllSpelled.tokens {ws : List Word} (h : AllSpelled ws) :
    ∃ ts, AllLexical ts ∧ ts.map Located.word = ws := by
  induction ws with
  | nil => exact ⟨[], nofun, rfl⟩
  | cons w ws ih =>
    obtain ⟨⟨token, hlexical, hword⟩, hws⟩ := allSpelled_cons.mp h
    obtain ⟨ts, hts, hwords⟩ := ih hws
    refine ⟨⟨token, .start⟩ :: ts, allLexical_cons.mpr ⟨hlexical, hts⟩, ?_⟩
    rw [List.map_cons, hword, hwords]

@[simp] theorem spelled_symbol (mark : Symbol) : (Word.symbol mark).Spelled :=
  ⟨.symbol mark, trivial, rfl⟩

@[simp] theorem spelled_keyword (word : Keyword) : (Word.keyword word).Spelled :=
  ⟨.keyword word, trivial, rfl⟩

@[simp] theorem spelled_newline : (Word.token .newline).Spelled :=
  ⟨.newline, trivial, rfl⟩

@[simp] theorem spelled_eof : (Word.token .eof).Spelled :=
  ⟨.eof, trivial, rfl⟩

@[simp] theorem spelled_text (value : String) : (Word.token (.str value)).Spelled :=
  ⟨.str value, trivial, rfl⟩

theorem spelled_name {name : String} (h : IsIdentifier name) : (Word.name name).Spelled :=
  ⟨.identifier name, h, rfl⟩

/-- A number is spelled by the literal it is the value of. -/
theorem spelled_number {text : String} {value : Float} (htext : IsLiteral text)
    (hvalue : Number.read? text = some value) : (Word.number value).Spelled := by
  refine ⟨.int text, htext, ?_⟩
  unfold Located.word
  simp only [Token.number?, hvalue]

theorem allSpelled_place {parens : Parens} {f : Follow} {least : Nat} {e : Expr}
    {write : Follow → List Word} (h : ∀ f, AllSpelled (write f)) :
    AllSpelled (place parens f least e write) := by
  unfold place
  split
  · simp [h]
  · exact h f

@[simp] theorem allSpelled_ending (b : Body) : AllSpelled b.ending := by
  cases b <;> simp [Body.ending]

@[simp] theorem allSpelled_arrow (b : Body) : AllSpelled b.arrow := by
  cases b <;> simp [Body.arrow]

theorem allSpelled_params {params : List String} (h : ∀ text ∈ params, IsIdentifier text) :
    AllSpelled (paramWords params) := by
  induction params with
  | nil => exact allSpelled_nil
  | cons name names ih =>
    obtain ⟨hname, hnames⟩ := List.forall_mem_cons.mp h
    cases names with
    | nil => exact allSpelled_cons.mpr ⟨spelled_name hname, allSpelled_nil⟩
    | cons other names =>
      exact allSpelled_cons.mpr ⟨spelled_name hname,
        allSpelled_cons.mpr ⟨spelled_symbol .comma, ih hnames⟩⟩

theorem allSpelled_signature {name : Option String} (h : ∀ text ∈ name, IsIdentifier text) :
    AllSpelled (name.map Word.name).toList := by
  cases name with
  | none => exact allSpelled_nil
  | some text => exact allSpelled_cons.mpr ⟨spelled_name (h text rfl), allSpelled_nil⟩

mutual

/-- All words of a well-formed expression can be spelled. -/
theorem Expr.WellFormed.allSpelled (parens : Parens) (e : Expr) (h : e.WellFormed) (f : Follow) :
    AllSpelled (e.words parens f) := by
  match e with
  | .number value p =>
    obtain ⟨text, htext, hvalue⟩ := h
    exact allSpelled_cons.mpr ⟨spelled_number htext hvalue, allSpelled_nil⟩
  | .text value p => simp [Expr.words]
  | .list es p =>
    simp [Expr.words, Expr.AllWellFormed.allSpelled parens _ (spelled_symbol .comma) es h]
  | .name name p => exact allSpelled_cons.mpr ⟨spelled_name h, allSpelled_nil⟩
  | .assign name value p =>
    simp [Expr.words, spelled_name h.1,
      allSpelled_place (Expr.WellFormed.allSpelled parens value h.2)]
  | .binary op left right p =>
    simp [Expr.words, allSpelled_place (Expr.WellFormed.allSpelled parens left h.1),
      allSpelled_place (Expr.WellFormed.allSpelled parens right h.2)]
  | .unary op operand p =>
    simp [Expr.words, allSpelled_place (Expr.WellFormed.allSpelled parens operand h)]
  | .ifThen condition b rest p =>
    simp [Expr.words, allSpelled_place (Expr.WellFormed.allSpelled parens condition h.1),
      Body.WellFormed.allSpelled parens b h.2.1,
      Chain.WellFormed.allSpelled parens rest h.2.2 f (allSpelled_ending b)]
  | .forTo var start stop by_ b p =>
    obtain ⟨hvar, hstart, hstop, hby, hb⟩ := h
    simp [Expr.words, spelled_name hvar,
      allSpelled_place (Expr.WellFormed.allSpelled parens start hstart),
      allSpelled_place (Expr.WellFormed.allSpelled parens stop hstop),
      Expr.StepWellFormed.allSpelled parens by_ hby, Body.WellFormed.allSpelled parens b hb]
  | .whileDo condition b p =>
    simp [Expr.words, allSpelled_place (Expr.WellFormed.allSpelled parens condition h.1),
      Body.WellFormed.allSpelled parens b h.2]
  | .function name params b p =>
    obtain ⟨hname, hparams, hb⟩ := h
    simp [Expr.words, allSpelled_signature hname, allSpelled_params hparams,
      Body.WellFormed.allSpelled parens b hb]
  | .call callee arguments p =>
    simp [Expr.words, allSpelled_place (Expr.WellFormed.allSpelled parens callee h.1),
      Expr.AllWellFormed.allSpelled parens _ (spelled_symbol .comma) arguments h.2]
termination_by structural e

theorem Expr.AllWellFormed.allSpelled (parens : Parens) (separator : Word)
    (hseparator : separator.Spelled) (es : List Expr) (h : Expr.AllWellFormed es) :
    AllSpelled (Expr.wordsJoined parens separator es) := by
  match es with
  | [] => exact allSpelled_nil
  | [e] => exact allSpelled_place (Expr.WellFormed.allSpelled parens e h.1)
  | e :: e' :: es =>
    simp only [Expr.wordsJoined, allSpelled_append, allSpelled_cons]
    exact ⟨allSpelled_place (Expr.WellFormed.allSpelled parens e h.1), hseparator,
      Expr.AllWellFormed.allSpelled parens separator hseparator (e' :: es) h.2⟩
termination_by structural es

theorem Expr.StepWellFormed.allSpelled (parens : Parens) (by_ : Option Expr)
    (h : Expr.StepWellFormed by_) : AllSpelled (Expr.stepWords parens by_) := by
  match by_ with
  | none => exact allSpelled_nil
  | some e =>
    simp [Expr.stepWords, allSpelled_place (Expr.WellFormed.allSpelled parens e h)]
termination_by structural by_

theorem Expr.IsBlock.allSpelled (parens : Parens) (e : Expr) (h : e.IsBlock) :
    AllSpelled (Expr.lines parens e) := by
  match e with
  | .list es p => exact Expr.AllWellFormed.allSpelled parens _ spelled_newline es h.2
termination_by structural e

theorem Body.WellFormed.allSpelled (parens : Parens) (b : Body) (h : b.WellFormed) (f : Follow) :
    AllSpelled (b.words parens f) := by
  match b with
  | .inline e => exact allSpelled_place (Expr.WellFormed.allSpelled parens e h)
  | .block e => simp [Body.words, Expr.IsBlock.allSpelled parens e h]
termination_by structural b

theorem Chain.WellFormed.allSpelled (parens : Parens) (chain : Chain) (h : chain.WellFormed)
    (f : Follow) {ending : List Word} (hending : AllSpelled ending) :
    AllSpelled (chain.words parens f ending) := by
  match chain with
  | .done => exact hending
  | .otherwise b => simp [Chain.words, Body.WellFormed.allSpelled parens b h]
  | .elif condition b rest =>
    simp [Chain.words, allSpelled_place (Expr.WellFormed.allSpelled parens condition h.1),
      Body.WellFormed.allSpelled parens b h.2.1,
      Chain.WellFormed.allSpelled parens rest h.2.2 f (allSpelled_ending b)]
termination_by structural chain

end

/-! ### Whole programs -/

/-- The words of a program that is printed with the parentheses it needs. -/
def Expr.printout (tree : Expr) : List Word :=
  tree.lines .needed ++ [.token .eof]

/-- A well-formed program can be written with tokens of the known shapes. -/
theorem Expr.IsProgram.tokens {tree : Expr} (h : tree.IsProgram) :
    ∃ tokens, AllLexical tokens ∧ tokens.map Located.word = tree.printout := by
  refine AllSpelled.tokens (allSpelled_append.mpr ⟨?_, by simp⟩)
  cases tree with
  | list es p => exact Expr.AllWellFormed.allSpelled .needed _ spelled_newline es h
  | _ => cases h

/-- A well-formed program is read back as itself. -/
theorem parse_printout {tree : Expr} (h : tree.IsProgram) {tokens : List Located}
    (hwords : tokens.map Located.word = tree.printout) :
    ∃ tree' : Expr, (parse tokens).1 = .value tree' ∧ tree'.Alike tree := by
  -- the last word is the end of input, and it is the last token
  obtain ⟨init, _, rfl, hinit, hlast⟩ := List.map_eq_append_iff.mp hwords
  obtain ⟨q, _, rfl, hnil⟩ := (map_word_eq_cons_iff rfl).mp hlast
  obtain rfl := List.map_eq_nil_iff.mp hnil
  have hend : EndsInput (init ++ [⟨.eof, q⟩]) := ⟨init, q, rfl⟩
  cases tree with
  | list es p =>
    cases es with
    | nil =>
      obtain rfl := List.map_eq_nil_iff.mp hinit
      exact ⟨.list [] q, parse_of_readsProgram hend (.empty rfl), rfl⟩
    | cons e es =>
      -- the last statement is closed by the end of input
      have hends : Ends .closed 0 (next [⟨.eof, q⟩]) := ends_of_closes .eof rfl _ _
      obtain ⟨tree', halike, hread⟩ :=
        printed_statements (Expr.AllWellFormed.printed (e :: es) h) hinit hends rfl p
      exact ⟨tree', parse_of_readsProgram hend (.statements hread), halike⟩
  | _ => cases h

/-- **Round trip.** Only well-formed programs are read from a text. Every well-formed program can be
written with tokens of the known shapes and the parentheses it needs, and from all such tokens it is
read back, up to the places in it. -/
theorem parse_inverts_printout :
    (∀ source tokens tree, tokenize source = .ok tokens → (parse tokens).1 = .value tree →
      tree.IsProgram) ∧
    ∀ tree : Expr, tree.IsProgram →
      (∃ tokens, AllLexical tokens ∧ tokens.map Located.word = tree.printout) ∧
      ∀ tokens, tokens.map Located.word = tree.printout →
        ∃ tree' : Expr, (parse tokens).1 = .value tree' ∧ tree'.Alike tree :=
  ⟨fun _ _ _ => isProgram_of_parse,
    fun _ htree => ⟨htree.tokens, fun _ hwords => parse_printout htree hwords⟩⟩

/-- The sum of `IF a THEN b` and `c`. -/
def conditionalSum : Expr :=
  let p : Position := .start
  .list [.binary .add (.ifThen (.name "a" p) (.inline (.name "b" p)) .done p) (.name "c" p) p] p

theorem isProgram_conditionalSum : conditionalSum.IsProgram := by
  have hname (c : Char) (hstart : Lexer.isNameStart c)
      (hfree : Keyword.ofSpelling? (String.ofList [c]) = none) :
      IsIdentifier (String.ofList [c]) :=
    ⟨⟨c, [], rfl, hstart, rfl⟩, hfree⟩
  have ha : IsIdentifier "a" := hname 'a' rfl rfl
  have hb : IsIdentifier "b" := hname 'b' rfl rfl
  have hc : IsIdentifier "c" := hname 'c' rfl rfl
  exact ⟨⟨⟨ha, hb, trivial⟩, hc⟩, trivial⟩

/-- A conditional before an operator is in parentheses, and is read back. -/
theorem conditionalSum_reads_back :
    let tokens := atStart [.symbol .lparen, .keyword .if_, .identifier "a", .keyword .then_,
      .identifier "b", .symbol .rparen, .symbol .plus, .identifier "c", .eof]
    tokens.map Located.word = conditionalSum.printout ∧
      ∃ tree' : Expr, (parse tokens).1 = .value tree' ∧ tree'.Alike conditionalSum := by
  intro tokens
  have hwords : tokens.map Located.word = conditionalSum.printout := rfl
  exact ⟨hwords,
    (parse_inverts_printout.2 conditionalSum isProgram_conditionalSum).2 tokens hwords⟩

/-- The tokens of `IF a THEN b + c`. -/
def bareConditional : List Located :=
  atStart [.keyword .if_, .identifier "a", .keyword .then_, .identifier "b", .symbol .plus,
    .identifier "c", .eof]

/-- The operator goes to the last body. -/
theorem parse_bareConditional :
    (parse bareConditional).1 = .value (.list [.ifThen (.name "a" .start)
      (.inline (.binary .add (.name "b" .start) (.name "c" .start) .start)) .done .start] .start) :=
  rfl

/-- Parentheses by tightness alone are not enough. -/
theorem tightness_loses_conditionalSum :
    conditionalSum.IsProgram ∧
      bareConditional.map Located.word = conditionalSum.lines .byRank ++ [.token .eof] ∧
      ¬ ∃ tree' : Expr, (parse bareConditional).1 = .value tree' ∧ tree'.Alike conditionalSum := by
  refine ⟨isProgram_conditionalSum, rfl, ?_⟩
  rintro ⟨tree', htree, halike⟩
  -- the one statement is a conditional, and not a sum
  rw [parse_bareConditional] at htree
  obtain rfl := Outcome.value.inj htree
  simp only [Expr.Alike, conditionalSum, Expr.relocate, Expr.relocateAll, List.cons.injEq,
    Expr.list.injEq, reduceCtorEq, false_and] at halike

end LineScript
