import LineScript.Proofs.Grammar.Lookahead
import LineScript.Proofs.Grammar.Printing
import LineScript.Proofs.Lexer.Joining

/-!
# Programs one below the other

The statements of two programs, the second on a line of its own after the first, are those of the
first and then those of the second at the places where they now stand.

  * `Carries f φ`: the tokens `φ ts` are those of `ts`, moved by `f`, up to the end of input. What
    stands there instead of the end of input is the end of input or a separator.
  * `Reads.carry`: texts of a phrase are carried along, and so is the tree that they stand for.
  * `parse_resume` puts two programs together.

**Key idea.** Only lists of statements can tell a separator from the end of input: all other phrases
end before both. Inside a program these lists are closed by `END` or by a further branch, so the one
that reaches the end of input is the program itself, and this one goes on with the second program.
-/

namespace LineScript

open Grammar

/-! ### Moving trees -/

theorem Expr.position_relocate (f : Position → Position) (e : Expr) :
    (e.relocate f).position = f e.position := by
  cases e <;> rfl

mutual

theorem Expr.relocate_id : ∀ e : Expr, e.relocate id = e
  | .number value p => rfl
  | .text value p => rfl
  | .list es p => by rw [Expr.relocate, Expr.relocateAll_id es, id]
  | .name name p => rfl
  | .assign name e p => by rw [Expr.relocate, e.relocate_id, id]
  | .binary op l r p => by rw [Expr.relocate, l.relocate_id, r.relocate_id, id]
  | .unary op e p => by rw [Expr.relocate, e.relocate_id, id]
  | .ifThen c b r p => by rw [Expr.relocate, c.relocate_id, b.relocate_id, r.relocate_id, id]
  | .forTo var start stop step b p => by
    rw [Expr.relocate, start.relocate_id, stop.relocate_id, Expr.relocateStep_id step,
      b.relocate_id, id]
  | .whileDo c b p => by rw [Expr.relocate, c.relocate_id, b.relocate_id, id]
  | .function name params b p => by rw [Expr.relocate, b.relocate_id, id]
  | .call callee es p => by rw [Expr.relocate, callee.relocate_id, Expr.relocateAll_id es, id]
termination_by structural e => e

theorem Expr.relocateAll_id : ∀ es : List Expr, Expr.relocateAll id es = es
  | [] => rfl
  | e :: es => by rw [Expr.relocateAll, e.relocate_id, Expr.relocateAll_id es]
termination_by structural es => es

theorem Expr.relocateStep_id : ∀ step : Option Expr, Expr.relocateStep id step = step
  | none => rfl
  | some e => by rw [Expr.relocateStep, e.relocate_id]
termination_by structural step => step

theorem Body.relocate_id : ∀ b : Body, b.relocate id = b
  | .inline e => by rw [Body.relocate, e.relocate_id]
  | .block e => by rw [Body.relocate, e.relocate_id]
termination_by structural b => b

theorem Chain.relocate_id : ∀ chain : Chain, chain.relocate id = chain
  | .done => rfl
  | .otherwise b => by rw [Chain.relocate, b.relocate_id]
  | .elif c b r => by rw [Chain.relocate, c.relocate_id, b.relocate_id, r.relocate_id]
termination_by structural chain => chain

end

/-- The same phrase at other places. -/
def Phrase.relocate (f : Position → Position) : Phrase → Phrase
  | expression e => expression (e.relocate f)
  | tier t e => tier t (e.relocate f)
  | chain t left e => chain t (left.relocate f) (e.relocate f)
  | statements e => statements (e.relocate f)
  | further es => further (Expr.relocateAll f es)
  | items closing es => items closing (Expr.relocateAll f es)
  | separated closing es => separated closing (Expr.relocateAll f es)
  | signature name params => signature name params
  | body b => body (b.relocate f)
  | functionBody b => functionBody (b.relocate f)
  | case condition b rest => case (condition.relocate f) (b.relocate f) (rest.relocate f)
  | after rest => after (rest.relocate f)
  | step by_ => step (Expr.relocateStep f by_)

/-! ### Moving tokens -/

theorem dropWhile_newline (p : Position) (ts : List Located) :
    (⟨.newline, p⟩ :: ts).dropWhile Located.isNewline = ts.dropWhile Located.isNewline := rfl

theorem dropWhile_of_next_ne {ts : List Located} (h : next ts ≠ .newline) :
    ts.dropWhile Located.isNewline = ts := by
  cases ts with
  | nil => rfl
  | cons t ts => exact List.dropWhile_cons_of_neg (by simpa [Located.isNewline] using h)

/-- Up to the end of input the tokens stay the same and are moved by `f`. The end of input may
become a separator. -/
structure Carries (f : Position → Position) (φ : List Located → List Located) : Prop where
  /-- A token is kept, at the place given by `f`. -/
  cons : ∀ {token : Token} (p : Position) (ts : List Located), token ≠ .eof →
    φ (⟨token, p⟩ :: ts) = ⟨token, f p⟩ :: φ ts
  /-- Where the end of input was, there is the end of input or a separator. -/
  ends : ∀ {ts : List Located}, next ts = .eof → next (φ ts) = .eof ∨ next (φ ts) = .newline

namespace Carries

variable {f : Position → Position} {φ : List Located → List Located} {ts rest : List Located}

theorem symbol (h : Carries f φ) (mark : Symbol) (p : Position) (ts : List Located) :
    φ (⟨.symbol mark, p⟩ :: ts) = ⟨.symbol mark, f p⟩ :: φ ts :=
  h.cons p ts (by simp)

theorem keyword (h : Carries f φ) (word : Keyword) (p : Position) (ts : List Located) :
    φ (⟨.keyword word, p⟩ :: ts) = ⟨.keyword word, f p⟩ :: φ ts :=
  h.cons p ts (by simp)

theorem name (h : Carries f φ) (name : String) (p : Position) (ts : List Located) :
    φ (⟨.identifier name, p⟩ :: ts) = ⟨.identifier name, f p⟩ :: φ ts :=
  h.cons p ts (by simp)

theorem newline (h : Carries f φ) (p : Position) (ts : List Located) :
    φ (⟨.newline, p⟩ :: ts) = ⟨.newline, f p⟩ :: φ ts :=
  h.cons p ts (by simp)

theorem next_eq (h : Carries f φ) (hne : next ts ≠ .eof) : next (φ ts) = next ts := by
  cases ts with
  | nil => exact absurd rfl hne
  | cons t ts =>
    have ht : φ (t :: ts) = ⟨t.token, f t.position⟩ :: φ ts := h.cons t.position ts hne
    rw [ht, next_cons, next_cons]

/-- A token that is neither the end of input nor a separator does not come to stand anywhere. -/
theorem next_ne (h : Carries f φ) {token : Token} (hne : next ts ≠ token) (heof : token ≠ .eof)
    (hnewline : token ≠ .newline) : next (φ ts) ≠ token := by
  by_cases hend : next ts = .eof
  · rcases h.ends hend with heq | heq
    · rw [heq]
      exact heof.symm
    · rw [heq]
      exact hnewline.symm
  · rw [h.next_eq hend]
    exact hne

theorem continues (h : Carries f φ) {t : Tier} (hends : t.continues (next ts) = false) :
    t.continues (next (φ ts)) = false := by
  by_cases hend : next ts = .eof
  · rcases h.ends hend with heq | heq <;> rw [heq] <;> cases t <;> rfl
  · rw [h.next_eq hend]
    exact hends

/-- Separators may be skipped before or after, if the token behind them is the same. -/
theorem dropWhile (h : Carries f φ)
    (hsame : next (φ (ts.dropWhile Located.isNewline)) = next (ts.dropWhile Located.isNewline)) :
    (φ ts).dropWhile Located.isNewline = φ (ts.dropWhile Located.isNewline) := by
  induction ts with
  | nil =>
    rw [List.dropWhile_nil] at hsame ⊢
    refine dropWhile_of_next_ne ?_
    rw [hsame]
    exact nofun
  | cons t ts ih =>
    by_cases hnewline : t.token = .newline
    · obtain ⟨token, p⟩ := t
      subst hnewline
      rw [dropWhile_newline] at hsame ⊢
      rw [h.newline, dropWhile_newline]
      exact ih hsame
    · have hkeep : (t :: ts).dropWhile Located.isNewline = t :: ts := dropWhile_of_next_ne hnewline
      rw [hkeep] at hsame ⊢
      refine dropWhile_of_next_ne ?_
      rw [hsame]
      exact hnewline

theorem dropWhile_of_reads (h : Carries f φ) {e : Expr}
    (he : Reads (.expression e) (ts.dropWhile Located.isNewline) rest) :
    (φ ts).dropWhile Located.isNewline = φ (ts.dropWhile Located.isNewline) :=
  h.dropWhile (h.next_eq (Token.ne_eof_of_opensExpression he.opens))

end Carries

/-- A list of statements goes on as long as separators and expressions follow. -/
def Phrase.isList : Phrase → Bool
  | statements _ | further _ => true
  | _ => false

/-- Nothing is asked of what follows other phrases. -/
theorem anyFollows {phrase : Phrase} {q : Prop} (h : phrase.isList = false)
    (hlist : phrase.isList) : q := by
  rw [h] at hlist
  cases hlist

theorem Listed.carry {f : Position → Position} {φ : List Located → List Located}
    (hφ : Carries f φ) {closing : Symbol} {names : List String} {ts rest : List Located}
    (h : Listed IsName closing names ts rest) : Listed IsName closing names (φ ts) (φ rest) := by
  induction h with
  | @last name p ts rest hitem =>
    obtain ⟨q, rfl⟩ := hitem
    refine .last (p := f p) ⟨f q, ?_⟩
    rw [hφ.name, hφ.symbol]
  | @more name names p ts mid rest hitem _ ih =>
    obtain ⟨q, rfl⟩ := hitem
    refine .more (p := f p) ⟨f q, ?_⟩ ih
    rw [hφ.name, hφ.symbol]

/-- A text of a phrase is carried along. A list of statements must be followed by the same token. -/
theorem Reads.carry {f : Position → Position} {φ : List Located → List Located}
    (hφ : Carries f φ) {phrase : Phrase} {ts rest : List Located} (h : Reads phrase ts rest)
    (hsame : phrase.isList → next (φ rest) = next rest) :
    Reads (phrase.relocate f) (φ ts) (φ rest) := by
  induction h with
  | assign _ ih =>
    rw [hφ.keyword, hφ.name, hφ.symbol]
    exact .assign (ih (anyFollows rfl))
  | logical _ ih => exact .logical (ih (anyFollows rfl))
  | unary _ ih =>
    rw [hφ.symbol]
    exact .unary (ih (anyFollows rfl))
  | operators hloose _ _ ih ih' => exact .operators hloose (ih (anyFollows rfl)) (ih' (anyFollows rfl))
  | @link t op left right e p ts mid rest haccepts _ _ ih ih' =>
    rw [hφ.symbol]
    have hchain := ih' (anyFollows rfl)
    simp only [Phrase.relocate, Expr.relocate] at hchain
    rw [← Expr.position_relocate f] at hchain
    exact .link haccepts (ih (anyFollows rfl)) hchain
  | stop hends => exact .stop (hφ.continues hends)
  | @call callee arguments p ts mid rest _ _ ih ih' =>
    have hcallee := ih (anyFollows rfl)
    rw [hφ.symbol] at hcallee
    simp only [Phrase.relocate, Expr.relocate]
    rw [← Expr.position_relocate f]
    exact .call hcallee (ih' (anyFollows rfl))
  | @number token value p rest hvalue =>
    have htoken : token ≠ .eof := by
      rintro rfl
      cases hvalue
    rw [hφ.cons p rest htoken]
    exact .number hvalue
  | @text value p rest =>
    have htoken : (Token.str value) ≠ .eof := by simp
    rw [hφ.cons p rest htoken]
    exact .text
  | name =>
    rw [hφ.name]
    exact .name
  | grouping _ ih =>
    have he := ih (anyFollows rfl)
    rw [hφ.symbol] at he
    rw [hφ.symbol]
    exact .grouping he
  | list _ ih =>
    rw [hφ.symbol]
    exact .list (ih (anyFollows rfl))
  | conditional _ ih =>
    rw [hφ.keyword]
    exact .conditional (ih (anyFollows rfl))
  | forTo _ _ _ _ ih₁ ih₂ ih₃ ih₄ =>
    have hstart := ih₁ (anyFollows rfl)
    have hstep := ih₃ (anyFollows rfl)
    rw [hφ.keyword] at hstart hstep
    rw [hφ.keyword, hφ.name, hφ.symbol]
    exact .forTo hstart (ih₂ (anyFollows rfl)) hstep (ih₄ (anyFollows rfl))
  | whileDo _ _ ih ih' =>
    have hcondition := ih (anyFollows rfl)
    rw [hφ.keyword] at hcondition
    rw [hφ.keyword]
    exact .whileDo hcondition (ih' (anyFollows rfl))
  | function _ _ ih ih' =>
    rw [hφ.keyword]
    exact .function (ih (anyFollows rfl)) (ih' (anyFollows rfl))
  | named _ ih =>
    rw [hφ.name]
    exact .named (ih (anyFollows rfl))
  | noParams =>
    rw [hφ.symbol, hφ.symbol]
    exact .noParams
  | params hparams =>
    rw [hφ.symbol]
    exact .params (hparams.carry hφ)
  | arrow _ ih =>
    rw [hφ.symbol]
    exact .arrow (ih (anyFollows rfl))
  | functionBlock _ ih =>
    have he := ih fun _ => by rw [hφ.keyword]; rfl
    rw [hφ.keyword] at he
    rw [hφ.newline]
    exact .functionBlock he
  | inline _ ih => exact .inline (ih (anyFollows rfl))
  | block _ ih =>
    have he := ih fun _ => by rw [hφ.keyword]; rfl
    rw [hφ.keyword] at he
    rw [hφ.newline]
    exact .block he
  | inlineCase _ _ _ ih₁ ih₂ ih₃ =>
    have hcondition := ih₁ (anyFollows rfl)
    rw [hφ.keyword] at hcondition
    exact .inlineCase hcondition (ih₂ (anyFollows rfl)) (ih₃ (anyFollows rfl))
  | lastBlock _ _ ih ih' =>
    have hcondition := ih (anyFollows rfl)
    have he := ih' fun _ => by rw [hφ.keyword]; rfl
    rw [hφ.keyword, hφ.newline] at hcondition
    rw [hφ.keyword] at he
    exact .lastBlock hcondition he
  | @blockCase condition e chain p q ts ts₁ ts₂ rest _ _ hmore hchain ih₁ ih₂ ih₃ =>
    have hnext : next (φ ts₂) = next ts₂ := by
      refine hφ.next_eq ?_
      rcases next_of_after hmore hchain with heq | heq <;> simp [heq]
    have hcondition := ih₁ (anyFollows rfl)
    rw [hφ.keyword, hφ.newline] at hcondition
    have hmore' : chain.relocate f ≠ .done := by
      intro hdone
      cases chain with
      | done => exact hmore rfl
      | otherwise => cases hdone
      | elif => cases hdone
    exact .blockCase hcondition (ih₂ fun _ => hnext) hmore' (ih₃ (anyFollows rfl))
  | elif _ ih =>
    rw [hφ.keyword]
    exact .elif (ih (anyFollows rfl))
  | otherwise _ ih =>
    rw [hφ.keyword]
    exact .otherwise (ih (anyFollows rfl))
  | done hnoElif hnoElse =>
    refine .done ?_ ?_
    · exact hφ.next_ne hnoElif (by simp) (by simp)
    · exact hφ.next_ne hnoElse (by simp) (by simp)
  | step _ ih =>
    rw [hφ.keyword]
    exact .step (ih (anyFollows rfl))
  | noStep hends => exact .noStep (hφ.next_ne hends (by simp) (by simp))
  | @statements e es ts mid rest he _ ih ih' =>
    have hfirst := ih (anyFollows rfl)
    rw [← hφ.dropWhile_of_reads he] at hfirst
    simp only [Phrase.relocate, Expr.relocate]
    rw [← Expr.position_relocate f]
    exact .statements hfirst (ih' hsame)
  | @further e es p ts mid rest he _ ih ih' =>
    have hfirst := ih (anyFollows rfl)
    rw [← hφ.dropWhile_of_reads he] at hfirst
    rw [hφ.newline]
    exact .further hfirst (ih' hsame)
  | @noFurther ts hends =>
    rw [← hsame rfl, ← hφ.dropWhile (hsame rfl)] at hends
    rw [← hφ.dropWhile (hsame rfl)]
    exact .noFurther hends
  | noItems =>
    rw [hφ.symbol]
    exact .noItems
  | items _ ih => exact .items (ih (anyFollows rfl))
  | last _ ih =>
    have he := ih (anyFollows rfl)
    rw [hφ.symbol] at he
    exact .last he
  | more _ _ ih ih' =>
    have he := ih (anyFollows rfl)
    rw [hφ.symbol] at he
    exact .more he (ih' (anyFollows rfl))

/-! ### One program after another -/

/-- A token at another place. -/
def Located.relocate (f : Position → Position) (t : Located) : Located :=
  ⟨t.token, f t.position⟩

theorem carries_relocate (f : Position → Position) : Carries f (List.map (Located.relocate f)) := by
  refine ⟨fun _ _ _ => rfl, ?_⟩
  intro ts hend
  left
  cases ts with
  | nil => rfl
  | cons t ts => exact hend

theorem carries_resume (tail : List Located) : Carries id (resume tail) := by
  refine ⟨?_, ?_⟩
  · intro token p ts htoken
    exact resume_cons tail ts htoken
  · intro ts hend
    cases ts with
    | nil => exact .inl rfl
    | cons t ts =>
      have heof : t.token = .eof := hend
      right
      rw [resume, if_pos heof, next_cons]

/-- A program is what may follow a separator up to the end of input. -/
theorem further_iff_readsProgram (p : Position) {es : List Expr} {ts rest : List Located} :
    (∃ q, Reads (.further es) (⟨.newline, p⟩ :: ts) (⟨.eof, q⟩ :: rest)) ↔
      ∃ q, ReadsProgram (.list es q) ts rest := by
  constructor
  · rintro ⟨q, h⟩
    generalize hend : ⟨.eof, q⟩ :: rest = after at h
    cases h with
    | further he hes =>
      subst hend
      exact ⟨_, .statements (.statements he hes)⟩
    | noFurther => exact ⟨q, .empty hend.symm⟩
  · rintro ⟨q, h⟩
    cases h with
    | empty hskip =>
      refine ⟨q, ?_⟩
      rw [← hskip, ← dropWhile_newline p ts]
      refine .noFurther ?_
      rw [dropWhile_newline, hskip]
      rfl
    | @statements tree q ts rest htree =>
      cases htree with
      | statements he hes => exact ⟨q, .further he hes⟩

/-- A further separator before the statements does not matter. -/
theorem Reads.further_cons {es : List Expr} {ts rest : List Located}
    (h : Reads (.further es) ts rest) (p : Position) :
    Reads (.further es) (⟨.newline, p⟩ :: ts) rest := by
  cases h with
  | further he hes => exact .further he hes
  | noFurther hends => exact .noFurther hends

/-- Where only separators are left before the end of input, another program follows. -/
theorem Reads.further_of_breaks {bs : List Expr} {p : Position} {tail ts more rest : List Located}
    (hbreaks : ts.dropWhile Located.isNewline = ⟨.eof, p⟩ :: more)
    (hb : Reads (.further bs) (⟨.newline, p⟩ :: tail) rest) :
    Reads (.further bs) (resume tail ts) rest := by
  induction ts with
  | nil => cases hbreaks
  | cons t ts ih =>
    by_cases hnewline : t.token = .newline
    · obtain ⟨token, q⟩ := t
      subst hnewline
      rw [(carries_resume tail).newline]
      exact (ih hbreaks).further_cons _
    · have hkeep : (t :: ts).dropWhile Located.isNewline = t :: ts := dropWhile_of_next_ne hnewline
      rw [hkeep] at hbreaks
      obtain ⟨rfl, -⟩ := List.cons.inj hbreaks
      rw [resume_eof]
      exact hb

/-- Where the statements of a program come to the end of input, they go on with those of another. -/
theorem Reads.further_resume {as bs : List Expr} {p : Position} {tail ts more rest : List Located}
    (ha : Reads (.further as) ts (⟨.eof, p⟩ :: more))
    (hb : Reads (.further bs) (⟨.newline, p⟩ :: tail) rest) :
    Reads (.further (as ++ bs)) (resume tail ts) rest := by
  have hcarries := carries_resume tail
  induction as generalizing ts with
  | nil =>
    generalize hend : ⟨.eof, p⟩ :: more = after at ha
    cases ha with
    | noFurther => exact .further_of_breaks hend.symm hb
  | cons e as ih =>
    cases ha with
    | further he hes =>
      have hfirst := he.carry hcarries (anyFollows rfl)
      rw [Phrase.relocate, Expr.relocate_id, ← hcarries.dropWhile_of_reads he] at hfirst
      rw [hcarries.newline]
      exact .further hfirst (ih hes)

/-- A program at other places. -/
theorem ReadsProgram.relocate (f : Position → Position) {tree : Expr} {ts rest : List Located}
    (h : ReadsProgram tree ts rest) :
    ReadsProgram (tree.relocate f) (ts.map (Located.relocate f))
      (rest.map (Located.relocate f)) := by
  have hcarries := carries_relocate f
  have hsame (ts : List Located) : next (ts.map (Located.relocate f)) = next ts := by
    cases ts <;> rfl
  cases h with
  | @empty p ts rest hskip =>
    refine .empty (p := f p) ?_
    rw [hcarries.dropWhile (hsame _), hskip]
    rfl
  | statements htree => exact .statements (htree.carry hcarries fun _ => hsame _)

theorem EndsInput.relocate (f : Position → Position) {ts : List Located} (h : EndsInput ts) :
    EndsInput (ts.map (Located.relocate f)) := by
  obtain ⟨init, p, rfl⟩ := h
  exact ⟨init.map (Located.relocate f), f p, List.map_append⟩

/-- Tokens at other places are read as the tree at these places. -/
theorem parse_relocate (f : Position → Position) {tokens : List Located} {tree : Expr}
    (hend : EndsInput tokens) (h : (parse tokens).1 = .value tree) :
    (parse (tokens.map (Located.relocate f))).1 = .value (tree.relocate f) := by
  obtain ⟨rest, hread, -⟩ := readsProgram_of_parse hend h
  exact parse_of_readsProgram (hend.relocate f) (hread.relocate f)

theorem exists_list_of_parse {tokens : List Located} {tree : Expr} (hend : EndsInput tokens)
    (h : (parse tokens).1 = .value tree) : ∃ es p, tree = .list es p := by
  obtain ⟨rest, hread, -⟩ := readsProgram_of_parse hend h
  cases hread with
  | empty => exact ⟨_, _, rfl⟩
  | statements htree =>
    cases htree with
    | statements => exact ⟨_, _, rfl⟩

theorem endsOnce_of_tokenize {source : String} {tokens : List Located}
    (h : tokenize source = .ok tokens) : EndsOnce tokens := by
  obtain ⟨init, q, rfl, hinit⟩ := tokenize_shape h
  refine ⟨⟨init, q, rfl⟩, ?_⟩
  rw [List.dropLast_concat]
  exact fun t ht => (hinit t ht).ne_eof

theorem EndsOnce.resume {ta tb : List Located} (ha : EndsOnce ta) (hb : EndsInput tb) :
    EndsInput (resume tb ta) := by
  obtain ⟨⟨init, p, rfl⟩, hinit⟩ := ha
  obtain ⟨init', q, rfl⟩ := hb
  rw [List.dropLast_concat] at hinit
  rw [resume_append _ _ hinit, resume_eof]
  exact ⟨init ++ ⟨.newline, p⟩ :: init', q, by simp⟩

/-- The statements of two programs, the second after a separator in place of the end of input. -/
theorem parse_append {ta tb : List Located} {as bs : List Expr} {p q : Position}
    (hta : EndsOnce ta) (htb : EndsInput tb) (ha : (parse ta).1 = .value (.list as p))
    (hb : (parse tb).1 = .value (.list bs q)) :
    ∃ r, (parse (resume tb ta)).1 = .value (.list (as ++ bs) r) := by
  obtain ⟨rest, hreada, -⟩ := readsProgram_of_parse hta.1 ha
  obtain ⟨rest', hreadb, -⟩ := readsProgram_of_parse htb hb
  -- each program is what follows a separator, so the first can go on with the second
  obtain ⟨u, hfurthera⟩ := (further_iff_readsProgram p).mpr ⟨p, hreada⟩
  obtain ⟨v, hfurtherb⟩ := (further_iff_readsProgram u).mpr ⟨q, hreadb⟩
  have hwhole := Reads.further_resume hfurthera hfurtherb
  rw [(carries_resume _).newline] at hwhole
  obtain ⟨r, hread⟩ := (further_iff_readsProgram p).mp ⟨v, hwhole⟩
  exact ⟨r, parse_of_readsProgram (hta.resume htb) hread⟩

/-- The statements of two programs, the second on a line of its own after the first. -/
theorem parse_resume {ta tb : List Located} {as bs : List Expr} {p q : Position}
    (hta : EndsOnce ta) (htb : EndsInput tb) (ha : (parse ta).1 = .value (.list as p))
    (hb : (parse tb).1 = .value (.list bs q)) (origin : Position) :
    ∃ r, (parse (resume (tb.map (Located.shift origin)) ta)).1 =
      .value (.list (as ++ Expr.relocateAll origin.shift bs) r) :=
  parse_append hta (htb.relocate origin.shift) ha (parse_relocate origin.shift htb hb)

end LineScript
