import LineScript.Proofs.Grammar.Derivation
import LineScript.Proofs.Lexer.Shapes

/-!
# Well-formed trees

Not every tree is the tree of a program. The names in it have to be names, its numbers the values of
numbers as they are written, without a sign, and a block holds at least one statement.

  * `Expr.WellFormed` says this of an expression, `Expr.IsBlock` of the statements of a block,
    `Expr.IsProgram` of a whole program.
  * `Reads.wellFormed`: what is read from tokens of the right shapes is well formed.
-/

namespace LineScript

mutual

/-- Names are identifiers, numbers are written without a sign, blocks are not empty. -/
def Expr.WellFormed : Expr → Prop
  | .number value _ => ∃ text, IsLiteral text ∧ Number.read? text = some value
  | .text _ _ => True
  | .list es _ => Expr.AllWellFormed es
  | .name name _ => IsIdentifier name
  | .assign name value _ => IsIdentifier name ∧ value.WellFormed
  | .binary _ left right _ => left.WellFormed ∧ right.WellFormed
  | .unary _ operand _ => operand.WellFormed
  | .ifThen condition b rest _ => condition.WellFormed ∧ b.WellFormed ∧ rest.WellFormed
  | .forTo var start stop by_ b _ =>
    IsIdentifier var ∧ start.WellFormed ∧ stop.WellFormed ∧ Expr.StepWellFormed by_ ∧ b.WellFormed
  | .whileDo condition b _ => condition.WellFormed ∧ b.WellFormed
  | .function name params b _ =>
    (∀ text ∈ name, IsIdentifier text) ∧ (∀ text ∈ params, IsIdentifier text) ∧ b.WellFormed
  | .call callee arguments _ => callee.WellFormed ∧ Expr.AllWellFormed arguments
termination_by structural e => e

/-- Every one of the expressions is well formed. -/
def Expr.AllWellFormed : List Expr → Prop
  | [] => True
  | e :: es => e.WellFormed ∧ Expr.AllWellFormed es
termination_by structural es => es

/-- The step of a loop is well formed, if there is one. -/
def Expr.StepWellFormed : Option Expr → Prop
  | none => True
  | some e => e.WellFormed
termination_by structural e => e

/-- At least one statement, all of them well formed. -/
def Expr.IsBlock : Expr → Prop
  | .list es _ => es ≠ [] ∧ Expr.AllWellFormed es
  | _ => False
termination_by structural e => e

/-- An expression or a block. -/
def Body.WellFormed : Body → Prop
  | .inline e => e.WellFormed
  | .block e => e.IsBlock
termination_by structural b => b

/-- All further branches are well formed. -/
def Chain.WellFormed : Chain → Prop
  | .done => True
  | .otherwise b => b.WellFormed
  | .elif condition b rest => condition.WellFormed ∧ b.WellFormed ∧ rest.WellFormed
termination_by structural chain => chain

end

/-- Any number of statements, all of them well formed. -/
def Expr.IsProgram : Expr → Prop
  | .list es _ => Expr.AllWellFormed es
  | _ => False

theorem Expr.IsBlock.isProgram {e : Expr} (h : e.IsBlock) : e.IsProgram := by
  cases e with
  | list es p => exact h.2
  | _ => exact h

/-- What a phrase stands for is well formed. A chain keeps it so. -/
def Phrase.WellFormed : Phrase → Prop
  | expression e | tier _ e => e.WellFormed
  | chain _ left e => left.WellFormed → e.WellFormed
  | statements e => e.IsBlock
  | further es | items _ es | separated _ es => Expr.AllWellFormed es
  | signature name params => (∀ text ∈ name, IsIdentifier text) ∧ ∀ text ∈ params, IsIdentifier text
  | body b | functionBody b => b.WellFormed
  | case condition b rest => condition.WellFormed ∧ b.WellFormed ∧ rest.WellFormed
  | after rest => rest.WellFormed
  | step by_ => Expr.StepWellFormed by_

/-- All tokens have the shapes that tokens have. -/
def AllLexical (ts : List Located) : Prop :=
  ∀ t ∈ ts, t.token.Lexical

@[simp] theorem allLexical_cons {token : Token} {p : Position} {ts : List Located} :
    AllLexical (⟨token, p⟩ :: ts) ↔ token.Lexical ∧ AllLexical ts :=
  List.forall_mem_cons

theorem AllLexical.dropWhile {ts : List Located} (h : AllLexical ts) (f : Located → Bool) :
    AllLexical (ts.dropWhile f) :=
  fun t ht => h t ((List.dropWhile_sublist f).subset ht)

/-- A number token stands for the value of a literal. -/
theorem wellFormed_number {token : Token} {value : Float} (p : Position)
    (hvalue : token.number? = some value) (h : token.Lexical) :
    (Expr.number value p).WellFormed := by
  cases token with
  | int text => exact ⟨text, h, hvalue⟩
  | float text => exact ⟨text, h, hvalue⟩
  | _ => cases hvalue

theorem wellFormed_params {params : List String} {ts rest : List Located}
    (h : Listed IsName .rparen params ts rest) (hts : AllLexical ts) :
    (∀ text ∈ params, IsIdentifier text) ∧ AllLexical rest := by
  induction h with
  | last hitem =>
    obtain ⟨p, rfl⟩ := hitem
    simp only [allLexical_cons] at hts
    simpa using ⟨hts.1, hts.2.2⟩
  | more hitem _ ih =>
    obtain ⟨p, rfl⟩ := hitem
    simp only [allLexical_cons] at hts
    obtain ⟨hnames, hrest⟩ := ih hts.2.2
    exact ⟨List.forall_mem_cons.mpr ⟨hts.1, hnames⟩, hrest⟩

/-- What is read from tokens of the right shapes is well formed. -/
theorem Reads.wellFormed {phrase : Phrase} {ts rest : List Located} (h : Reads phrase ts rest)
    (hts : AllLexical ts) : phrase.WellFormed ∧ AllLexical rest := by
  -- the shapes of the tokens are handed on from each part to the next
  induction h with
  | assign _ ih =>
    simp only [allLexical_cons] at hts
    obtain ⟨hvalue, hrest⟩ := ih hts.2.2.2
    exact ⟨⟨hts.2.1, hvalue⟩, hrest⟩
  | logical _ ih => exact ih hts
  | unary _ ih => exact ih (allLexical_cons.mp hts).2
  | operators _ _ _ ih ih' =>
    obtain ⟨hfirst, hmid⟩ := ih hts
    obtain ⟨hchain, hrest⟩ := ih' hmid
    exact ⟨hchain hfirst, hrest⟩
  | link _ _ _ ih ih' =>
    obtain ⟨hright, hmid⟩ := ih (allLexical_cons.mp hts).2
    obtain ⟨hchain, hrest⟩ := ih' hmid
    exact ⟨fun hleft => hchain ⟨hleft, hright⟩, hrest⟩
  | stop => exact ⟨id, hts⟩
  | call _ _ ih ih' =>
    obtain ⟨hcallee, hmid⟩ := ih hts
    obtain ⟨harguments, hrest⟩ := ih' (allLexical_cons.mp hmid).2
    exact ⟨⟨hcallee, harguments⟩, hrest⟩
  | @number token value p rest hvalue =>
    obtain ⟨htoken, hrest⟩ := allLexical_cons.mp hts
    exact ⟨wellFormed_number p hvalue htoken, hrest⟩
  | text => exact ⟨trivial, (allLexical_cons.mp hts).2⟩
  | name => exact allLexical_cons.mp hts
  | grouping _ ih =>
    obtain ⟨he, hmid⟩ := ih (allLexical_cons.mp hts).2
    exact ⟨he, (allLexical_cons.mp hmid).2⟩
  | list _ ih => exact ih (allLexical_cons.mp hts).2
  | conditional _ ih => exact ih (allLexical_cons.mp hts).2
  | forTo _ _ _ _ ih₁ ih₂ ih₃ ih₄ =>
    simp only [allLexical_cons] at hts
    obtain ⟨hstart, hts₁⟩ := ih₁ hts.2.2.2
    obtain ⟨hstop, hts₂⟩ := ih₂ (allLexical_cons.mp hts₁).2
    obtain ⟨hstep, hts₃⟩ := ih₃ hts₂
    obtain ⟨hbody, hrest⟩ := ih₄ (allLexical_cons.mp hts₃).2
    exact ⟨⟨hts.2.1, hstart, hstop, hstep, hbody⟩, hrest⟩
  | whileDo _ _ ih ih' =>
    obtain ⟨hcondition, hmid⟩ := ih (allLexical_cons.mp hts).2
    obtain ⟨hbody, hrest⟩ := ih' (allLexical_cons.mp hmid).2
    exact ⟨⟨hcondition, hbody⟩, hrest⟩
  | function _ _ ih ih' =>
    obtain ⟨⟨hname, hparams⟩, hmid⟩ := ih (allLexical_cons.mp hts).2
    obtain ⟨hbody, hrest⟩ := ih' hmid
    exact ⟨⟨hname, hparams, hbody⟩, hrest⟩
  | named _ ih =>
    obtain ⟨hname, hmid⟩ := allLexical_cons.mp hts
    obtain ⟨⟨-, hparams⟩, hrest⟩ := ih hmid
    refine ⟨⟨?_, hparams⟩, hrest⟩
    rintro text ⟨⟩
    exact hname
  | noParams =>
    simp only [allLexical_cons] at hts
    exact ⟨⟨nofun, nofun⟩, hts.2.2⟩
  | params hparams =>
    obtain ⟨hnames, hrest⟩ := wellFormed_params hparams (allLexical_cons.mp hts).2
    exact ⟨⟨nofun, hnames⟩, hrest⟩
  | arrow _ ih => exact ih (allLexical_cons.mp hts).2
  | functionBlock _ ih =>
    obtain ⟨he, hmid⟩ := ih (allLexical_cons.mp hts).2
    exact ⟨he, (allLexical_cons.mp hmid).2⟩
  | inline _ ih => exact ih hts
  | block _ ih =>
    obtain ⟨he, hmid⟩ := ih (allLexical_cons.mp hts).2
    exact ⟨he, (allLexical_cons.mp hmid).2⟩
  | inlineCase _ _ _ ih₁ ih₂ ih₃ =>
    obtain ⟨hcondition, hts₁⟩ := ih₁ hts
    obtain ⟨he, hts₂⟩ := ih₂ (allLexical_cons.mp hts₁).2
    obtain ⟨hchain, hrest⟩ := ih₃ hts₂
    exact ⟨⟨hcondition, he, hchain⟩, hrest⟩
  | lastBlock _ _ ih ih' =>
    obtain ⟨hcondition, hts₁⟩ := ih hts
    simp only [allLexical_cons] at hts₁
    obtain ⟨he, hrest⟩ := ih' hts₁.2.2
    exact ⟨⟨hcondition, he, trivial⟩, (allLexical_cons.mp hrest).2⟩
  | blockCase _ _ _ _ ih₁ ih₂ ih₃ =>
    obtain ⟨hcondition, hts₁⟩ := ih₁ hts
    simp only [allLexical_cons] at hts₁
    obtain ⟨he, hts₂⟩ := ih₂ hts₁.2.2
    obtain ⟨hchain, hrest⟩ := ih₃ hts₂
    exact ⟨⟨hcondition, he, hchain⟩, hrest⟩
  | elif _ ih => exact ih (allLexical_cons.mp hts).2
  | otherwise _ ih => exact ih (allLexical_cons.mp hts).2
  | done => exact ⟨trivial, hts⟩
  | step _ ih => exact ih (allLexical_cons.mp hts).2
  | noStep => exact ⟨trivial, hts⟩
  | statements _ _ ih ih' =>
    obtain ⟨he, hmid⟩ := ih (hts.dropWhile _)
    obtain ⟨hes, hrest⟩ := ih' hmid
    exact ⟨⟨List.cons_ne_nil _ _, he, hes⟩, hrest⟩
  | further _ _ ih ih' =>
    obtain ⟨he, hmid⟩ := ih ((allLexical_cons.mp hts).2.dropWhile _)
    obtain ⟨hes, hrest⟩ := ih' hmid
    exact ⟨⟨he, hes⟩, hrest⟩
  | noFurther => exact ⟨trivial, hts.dropWhile _⟩
  | noItems => exact ⟨trivial, (allLexical_cons.mp hts).2⟩
  | items _ ih => exact ih hts
  | last _ ih =>
    obtain ⟨he, hmid⟩ := ih hts
    exact ⟨⟨he, trivial⟩, (allLexical_cons.mp hmid).2⟩
  | more _ _ ih ih' =>
    obtain ⟨he, hmid⟩ := ih hts
    obtain ⟨hes, hrest⟩ := ih' (allLexical_cons.mp hmid).2
    exact ⟨⟨he, hes⟩, hrest⟩

/-- A text that is read is read as a well-formed program. -/
theorem isProgram_of_parse {source : String} {tokens : List Located} {tree : Expr}
    (htokens : tokenize source = .ok tokens) (h : (parse tokens).1 = .value tree) :
    tree.IsProgram := by
  obtain ⟨init, q, rfl, hinit⟩ := tokenize_shape htokens
  have hlexical : AllLexical (init ++ [⟨.eof, q⟩]) := by
    intro t ht
    obtain ht | ht := List.mem_append.mp ht
    · exact (hinit t ht).lexical
    · rw [List.mem_singleton.mp ht]
      trivial
  obtain ⟨rest, hread, -⟩ := readsProgram_of_parse ⟨init, q, rfl⟩ h
  cases hread with
  | empty => trivial
  | statements htree => exact (htree.wellFormed hlexical).1.isProgram

end LineScript
