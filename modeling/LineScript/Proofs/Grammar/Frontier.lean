import LineScript.Proofs.Grammar.Outlook

/-!
# The rules of the grammar foresee how they end

Every rule of the grammar, with any bound, ends in one of the ways of `Outlook`, and the name `x` is
a text of every rule for expressions. The rules are taken from the inside out: what is known of the
nested rules (`Nested.Foreseen`) gives the same for bodies, constructs, lists, atoms, the tiers of
operators and at last for expressions and statements, and `foreseen_nested` closes the circle.

The rules of which something is foreseen come in families, one for each bound. A family over `ι`
of nested rules gives a family over `ι × Nat` of rules that have a bound of their own.
-/

namespace LineScript

open Run Rule Token

/-- The nested rules end as foreseen, and a name is a text of both. -/
structure Nested.Foreseen {ι : Type} (sub : Nested) (subs : ι → Nested) : Prop where
  /-- One expression. -/
  expression : LineScript.Foreseen [.name] Closes sub.expression fun i => (subs i).expression
  /-- The statements of a block, of which one may be given up. -/
  statements : ForeseesOrGivesUp Closes sub.statements fun i => (subs i).statements
  /-- A name is a list of statements. -/
  offers : Offers [.name] Closes fun i => (subs i).statements
  /-- The nested rules go forward. -/
  runs : sub.Runs 0

/-- The nested rules may be counted in another way. -/
theorem Nested.Foreseen.reindex {ι κ : Type} {sub : Nested} {subs : ι → Nested}
    (h : sub.Foreseen subs) (f : κ → ι) : sub.Foreseen fun k => subs (f k) where
  expression := h.expression.variants fun k => .inr ⟨f k, rfl⟩
  statements := h.statements.variants fun k => .inr ⟨f k, rfl⟩
  offers := h.offers.variants fun k => .inr ⟨f k, rfl⟩
  runs := h.runs

namespace Grammar

variable {ι κ : Type} {sub : Nested} {subs : ι → Nested}

/-! ### Operators -/

theorem chain_of_none {accepts : BinaryOperator → Bool} {operand : Rule Expr} {m : Nat}
    {left : Expr} {c : Cursor} (h : (BinaryOperator.ofToken? c.peek).filter accepts = none) :
    chain accepts operand (m + 1) left c = (.value left, c) := by
  rw [chain, Run.bind_apply]
  simp only [look, h]
  rfl

theorem chain_of_some {accepts : BinaryOperator → Bool} {operand : Rule Expr} {m : Nat}
    {left : Expr} {c : Cursor} {op : BinaryOperator}
    (h : (BinaryOperator.ofToken? c.peek).filter accepts = some op) :
    chain accepts operand (m + 1) left c = (advance >>= fun _ => operand >>= fun right =>
      chain accepts operand m (.binary op left right left.position)) c := by
  rw [chain, Run.bind_apply]
  simp only [look, h]

theorem filter_of_closes {token : Token} (accepts : BinaryOperator → Bool) (h : token.Closes) :
    (BinaryOperator.ofToken? token).filter accepts = none := by
  rw [h.ofToken?_eq_none]
  rfl

theorem offers_chain (accepts : BinaryOperator → Bool) (operands : ι → Rule Expr) (left : Expr) :
    Offers [] Closes fun x : ι × Nat => chain accepts (operands x.1) x.2 left := by
  intro rest hnext
  refine ⟨left, ?_⟩
  rintro ⟨i, _ | m⟩ c hc htext
  · exact .inl rfl
  · have hpeek : c.peek.Closes := by
      rw [← hc.ended.next_rest, htext]
      exact hnext
    exact .inr ⟨c, chain_of_none (filter_of_closes accepts hpeek), hc.ended.refl, hc.clear, htext⟩

theorem foreseen_chain (accepts : BinaryOperator → Bool) {operand : Rule Expr}
    {operands : ι → Rule Expr} (h : Foreseen [.name] Closes operand operands) (m : Nat)
    (left : Expr) :
    Foreseen [] Closes (chain accepts operand m left)
      fun x : ι × Nat => chain accepts (operands x.1) x.2 left := by
  refine ⟨?_, offers_chain accepts operands left⟩
  induction m generalizing left with
  | zero => exact fun _ _ _ => .exhausted
  | succ m ih =>
    have hstep : Foresees Closes (chain accepts operand (m + 1) left)
        fun x : ι × Nat => chain accepts (operands x.1) (x.2 + 1) left := by
      intro c hc hlegible
      cases hop : (BinaryOperator.ofToken? c.peek).filter accepts with
      | none =>
        rw [chain_of_none hop]
        refine outlook_still hc ?_
        rintro x c' (hsame | hcloses)
        · exact .inr (chain_of_none (hsame ▸ hop))
        · exact .inr (chain_of_none (filter_of_closes accepts hcloses))
      | some op =>
        have hne : c.peek ≠ .eof := by
          intro heof
          rw [heof] at hop
          cases hop
        have hlink : ∀ right, Foreseen [] Closes
            (chain accepts operand m (.binary op left right left.position))
            fun x : ι × Nat => chain accepts (operands x.1) x.2
              (.binary op left right left.position) := by
          intro right
          exact ⟨ih _, offers_chain accepts operands _⟩
        have hoperand : Foreseen [.name] Closes operand
            fun x : ι × Nat => operands x.1 :=
          h.variants fun x => .inr ⟨x.1, rfl⟩
        have hread := foreseesAt_advance _ hne fun _ : Located =>
          hoperand.bind hlink (fun _ hnext => hnext) fun _ htoken => htoken
        refine (hread.congr ?_ ?_ c hc hlegible rfl).1
        · intro c' hpeek
          exact chain_of_some (hpeek ▸ hop)
        · intro x c' hpeek
          exact chain_of_some (hpeek ▸ hop)
    refine hstep.variants ?_
    rintro ⟨i, _ | m'⟩
    · exact .inl rfl
    · exact .inr ⟨(i, m'), rfl⟩

theorem offers_leftAssociative (accepts : BinaryOperator → Bool) {operands : ι → Rule Expr}
    (h : Offers [.name] Closes operands) :
    Offers [.name] Closes fun x : ι × Nat => leftAssociative accepts (operands x.1) x.2 := by
  have hoperand : Offers [.name] Closes fun x : ι × Nat => operands x.1 :=
    h.variants fun x => .inr ⟨x.1, rfl⟩
  exact hoperand.bind (fun first => offers_chain accepts operands first) fun _ hnext => hnext

theorem foreseen_leftAssociative (accepts : BinaryOperator → Bool) {operand : Rule Expr}
    {operands : ι → Rule Expr} (h : Foreseen [.name] Closes operand operands) (m : Nat) :
    Foreseen [.name] Closes (leftAssociative accepts operand m)
      fun x : ι × Nat => leftAssociative accepts (operands x.1) x.2 := by
  have hoperand : Foreseen [.name] Closes operand fun x : ι × Nat => operands x.1 :=
    h.variants fun x => .inr ⟨x.1, rfl⟩
  exact hoperand.bind (fun first => foreseen_chain accepts h m first) (fun _ hnext => hnext)
    fun _ htoken => htoken

/-! ### Bodies -/

theorem foreseen_inlineBody (hsub : sub.Foreseen subs) :
    Foreseen [.name] Closes (inlineBody sub) fun i => inlineBody (subs i) :=
  hsub.expression.map Body.inline

/-- A block begins with its line break, and what comes after it settles what was given up. -/
theorem foreseesAt_block_bind {α : Type} {after : Body → Rule α} {afters : ι → Body → Rule α}
    {vs : List Lexeme} (hsub : sub.Foreseen subs)
    (hafter : ∀ b, Foreseen vs Closes (after b) fun i => afters i b)
    (hlead : ∀ rest, (next rest).Closes → (next (placed vs ++ rest)).Closes)
    (hsettles : ∀ b, Settles (after b)) (hsettles' : ∀ i b, Settles (afters i b)) :
    ForeseesAt .newline Closes (block sub >>= after) fun i => block (subs i) >>= afters i := by
  have hstatements : Foreseen ([.name] ++ vs) Closes (sub.statements >>= fun e => after (.block e))
      fun i => (subs i).statements >>= fun e => afters i (.block e) := by
    refine ⟨?_, hsub.offers.bind (fun e => (hafter (.block e)).offers) hlead⟩
    exact hsub.statements.bind_settled (fun e => hafter (.block e)) hlead (fun _ htoken => htoken)
      (fun e => hsettles (.block e)) fun i e => hsettles' i (.block e)
  have hrun : ∀ (s : Nested) (k : Body → Rule α) (c : Cursor), c.peek = .newline →
      (block s >>= k) c =
        (advance >>= fun _ : Located => s.statements >>= fun e => k (.block e)) c := by
    intro s k c hpeek
    simp only [block, Run.bind_apply, expect_of_peek hpeek, Rule.advance]
    rcases s.statements c.advance with ⟨e | e | _, d⟩ <;> rfl
  exact (foreseesAt_advance .newline (by simp) fun _ => hstatements).congr (hrun sub after)
    fun i => hrun (subs i) (afters i)

theorem foreseesAt_closedBlock (hsub : sub.Foreseen subs) (construct : Keyword) :
    ForeseesAt .newline Closes (do
      let b ← block sub
      blockEnd construct
      pure b) (fun i => do
      let b ← block (subs i)
      blockEnd construct
      pure b) := by
  have hend : ∀ b : Body, Foreseen [.keyword .end_] Closes
      (blockEnd construct >>= fun _ => pure b) fun _ : ι => blockEnd construct >>= fun _ => pure b :=
    fun b => (requires_blockEnd construct).bind (.keyword .end_) rfl fun _ => foreseen_pure b
  exact foreseesAt_block_bind hsub hend (fun _ _ => trivial)
    (fun _ => (settles_blockEnd construct).bind _) fun _ _ => (settles_blockEnd construct).bind _

theorem foreseen_body (hsub : sub.Foreseen subs) (construct : Keyword) :
    Foreseen [.name] Closes (body sub construct) fun i => body (subs i) construct := by
  have hinline := foreseen_inlineBody hsub
  refine ⟨?_, hinline.offers.unseen fun _ _ => nofun⟩
  exact foresees_sees (foreseesAt_closedBlock hsub construct) hinline.foresees id

theorem foreseen_functionBody (hsub : sub.Foreseen subs) :
    Foreseen [.symbol .arrow, .name] Closes (functionBody sub) fun i => functionBody (subs i) := by
  have hinline := foreseen_inlineBody hsub
  refine ⟨?_, Offers.seen (.symbol .arrow) rfl fun _ => hinline.offers⟩
  refine foresees_sees (foreseesAt_advance _ nofun fun _ => hinline) ?_ id
  exact foresees_sees (foreseesAt_closedBlock hsub .function)
    ((requires_unexpected _).foresees _) id

/-! ### Constructs -/

section branches

variable {case : Rule (Expr × Body × Chain)} {cases : ι → Rule (Expr × Body × Chain)}

theorem foreseesAt_elifBranch (hcase : ForeseesAt (.keyword .elif) Closes case cases) :
    ForeseesAt (.keyword .elif) Closes (afterCase sub case)
      fun i => afterCase (subs i) (cases i) := by
  have hbranch := hcase.map fun r : Expr × Body × Chain => Chain.elif r.1 r.2.1 r.2.2
  refine hbranch.congr ?_ ?_
  · intro c hpeek
    exact (sees_apply _ _ _ c).trans (if_pos hpeek)
  · intro i c hpeek
    exact (sees_apply _ _ _ c).trans (if_pos hpeek)

theorem foreseesAt_elseBranch (hsub : sub.Foreseen subs) :
    ForeseesAt (.keyword .else_) Closes (afterCase sub case)
      fun i => afterCase (subs i) (cases i) := by
  have hbranch : ForeseesAt (.keyword .else_) Closes
      (advance >>= fun _ => body sub .else_ >>= fun b => pure (Chain.otherwise b))
      fun i => advance >>= fun _ => body (subs i) .else_ >>= fun b => pure (Chain.otherwise b) :=
    foreseesAt_advance _ nofun fun _ => (foreseen_body hsub .else_).map Chain.otherwise
  have hrun : ∀ (s : Nested) (k : Rule (Expr × Body × Chain)) (c : Cursor),
      c.peek = .keyword .else_ → afterCase s k c =
        (advance >>= fun _ => body s .else_ >>= fun b => pure (Chain.otherwise b)) c := by
    intro s k c hpeek
    have hnoElif : c.peek ≠ .keyword .elif := by
      rw [hpeek]
      decide
    refine (sees_apply _ _ _ c).trans ((if_neg hnoElif).trans ?_)
    exact (sees_apply _ _ _ c).trans (if_pos hpeek)
  exact hbranch.congr (hrun sub case) fun i => hrun (subs i) (cases i)

theorem foreseen_afterCase (hsub : sub.Foreseen subs)
    (hcase : ForeseesAt (.keyword .elif) Closes case cases) :
    Foreseen [] Closes (afterCase sub case) fun i => afterCase (subs i) (cases i) := by
  have hdone : Foreseen [] Closes (pure .done : Rule Chain) fun _ : ι => pure .done :=
    foreseen_pure _
  refine ⟨?_, ?_⟩
  · refine foresees_sees ?_ (foresees_sees ?_ hdone.foresees id) id
    · exact hcase.map fun r : Expr × Body × Chain => Chain.elif r.1 r.2.1 r.2.2
    · exact foreseesAt_advance _ nofun fun _ => (foreseen_body hsub .else_).map Chain.otherwise
  · refine Offers.unseen (Offers.unseen hdone.offers ?_) ?_
    · intro rest hnext
      exact hnext.ne id
    · intro rest hnext
      exact hnext.ne id

/-- What follows the block of a case: `END`, a further branch, or the error that `END` is
missing. -/
theorem foreseen_blockTail {α : Type} (hsub : sub.Foreseen subs)
    (hcase : ForeseesAt (.keyword .elif) Closes case cases) (f : Chain → α) :
    Foreseen [.keyword .end_] Closes
      (do
        if ← seesKeyword .end_ then
          let _ ← advance
          pure (f .done)
        else if (← seesKeyword .elif) || (← seesKeyword .else_) then
          let rest ← afterCase sub case
          pure (f rest)
        else
          blockEnd .if_
          pure (f .done))
      (fun i => do
        if ← seesKeyword .end_ then
          let _ ← advance
          pure (f .done)
        else if (← seesKeyword .elif) || (← seesKeyword .else_) then
          let rest ← afterCase (subs i) (cases i)
          pure (f rest)
        else
          blockEnd .if_
          pure (f .done)) := by
  refine ⟨.of_at fun token => ?_, Offers.seen (.keyword .end_) rfl fun _ => (foreseen_pure _).offers⟩
  -- which way is taken depends on the current token alone
  have hmore : ∀ (yes no : Rule α) (c : Cursor),
      (seesKeyword .elif >>= fun elif => seesKeyword .else_ >>= fun else_ =>
        if (elif || else_) = true then yes else no) c =
      if c.peek = .keyword .elif ∨ c.peek = .keyword .else_ then yes c else no c := by
    intro yes no c
    simp only [Run.bind_apply, seesKeyword, sees, look, Bool.or_eq_true, decide_eq_true_eq]
    split <;> rfl
  by_cases hend : token = .keyword .end_
  · subst hend
    refine (foreseesAt_advance (.keyword .end_) (by simp) fun _ =>
      foreseen_pure (f .done)).congr ?_ ?_
    · intro c hpeek
      exact (sees_apply _ _ _ c).trans (if_pos hpeek)
    · intro i c hpeek
      exact (sees_apply _ _ _ c).trans (if_pos hpeek)
  by_cases hbranch : token = .keyword .elif ∨ token = .keyword .else_
  · have hafter : ForeseesAt token Closes (afterCase sub case)
        fun i => afterCase (subs i) (cases i) := by
      rcases hbranch with rfl | rfl
      · exact foreseesAt_elifBranch hcase
      · exact foreseesAt_elseBranch hsub
    refine (hafter.map f).congr ?_ ?_
    · intro c hpeek
      subst hpeek
      exact (sees_apply _ _ _ c).trans ((if_neg hend).trans ((hmore _ _ c).trans (if_pos hbranch)))
    · intro i c hpeek
      subst hpeek
      exact (sees_apply _ _ _ c).trans ((if_neg hend).trans ((hmore _ _ c).trans (if_pos hbranch)))
  · have hmissing : ForeseesAt token Closes (blockEnd .if_ >>= fun _ => pure (f .done))
        fun _ : ι => blockEnd .if_ >>= fun _ => pure (f .done) :=
      (requires_blockEnd .if_).foreseesAt [] (fun _ => foreseen_pure _) token
    refine hmissing.congr ?_ ?_
    · intro c hpeek
      subst hpeek
      exact (sees_apply _ _ _ c).trans ((if_neg hend).trans ((hmore _ _ c).trans (if_neg hbranch)))
    · intro i c hpeek
      subst hpeek
      exact (sees_apply _ _ _ c).trans ((if_neg hend).trans ((hmore _ _ c).trans (if_neg hbranch)))

end branches

theorem foresees_ifCase (hsub : sub.Foreseen subs) (m : Nat) (word : Keyword) :
    Foresees Closes (ifCase sub m word) fun x : ι × Nat => ifCase (subs x.1) x.2 word := by
  induction m generalizing word with
  | zero => exact fun _ _ _ => .exhausted
  | succ m ih =>
    have hsub' : sub.Foreseen fun x : ι × Nat => subs x.1 := hsub.reindex Prod.fst
    have hcase := (ih .elif).at_of_commits
      (starts_ifCase hsub.runs (Nat.zero_le _) (Nat.zero_le _) .elif).commits
    have hafter := foreseen_afterCase hsub' hcase
    have hstep : Foreseen [.keyword word, .name, .keyword .then_, .name] Closes
        (ifCase sub (m + 1) word) fun x : ι × Nat => ifCase (subs x.1) (x.2 + 1) word := by
      refine (requires_keyword word).bind (.keyword word) rfl fun _ => ?_
      refine hsub'.expression.bind (fun condition => ?_) (fun _ _ => trivial) fun _ htoken => htoken
      refine (requires_keyword .then_).bind (.keyword .then_) rfl fun _ => ?_
      -- an expression on the same line, or a block
      have hinline : Foreseen [.name] Closes
          (inlineBody sub >>= fun b => afterCase sub (ifCase sub m .elif) >>= fun rest =>
            pure (condition, b, rest))
          fun x : ι × Nat => inlineBody (subs x.1) >>= fun b =>
            afterCase (subs x.1) (ifCase (subs x.1) x.2 .elif) >>= fun rest =>
              pure (condition, b, rest) :=
        (foreseen_inlineBody hsub').bind (fun b => hafter.map fun rest => (condition, b, rest))
          (fun _ hnext => hnext) fun _ htoken => htoken
      refine ⟨foresees_sees ?_ hinline.foresees id, hinline.offers.unseen fun _ _ => nofun⟩
      refine foreseesAt_block_bind hsub'
        (fun b => foreseen_blockTail hsub' hcase fun rest => (condition, b, rest))
        (fun _ _ => trivial) ?_ ?_
      · intro b
        refine .of_sees (by decide) (.of_sees (by decide) (.of_sees (by decide) ?_))
        exact (settles_blockEnd .if_).bind _
      · intro x b
        refine .of_sees (by decide) (.of_sees (by decide) (.of_sees (by decide) ?_))
        exact (settles_blockEnd .if_).bind _
    refine hstep.foresees.variants ?_
    rintro ⟨i, _ | m'⟩
    · exact .inl rfl
    · exact .inr ⟨(i, m'), rfl⟩

theorem foreseesAt_conditional (hsub : sub.Foreseen subs) (m : Nat) :
    ForeseesAt (.keyword .if_) Closes (conditional sub m)
      fun x : ι × Nat => conditional (subs x.1) x.2 := by
  intro c hc hlegible hpeek
  have hcommits := (starts_conditional hsub.runs (Nat.zero_le _) (Nat.zero_le m)).commits
  -- the place of the conditional is that of its first token
  have hcase := (foresees_ifCase hsub m .if_).map (fun r : Expr × Body × Chain =>
    Expr.ifThen r.1 r.2.1 r.2.2 c.position) c hc hlegible
  have hmoved : ∀ e d, conditional sub m c = (.value e, d) → c.index < d.index := by
    intro e d hrun
    have hlt := hcommits c hc.ended hpeek
    rw [hrun] at hlt
    exact hlt.resolve_left nofun
  refine ⟨?_, hmoved⟩
  refine Outlook.congr hcase hc ?_ (.inl hmoved)
  intro x c' _ hcurrent
  refine .inr ⟨x, ?_⟩
  have hplace : c'.position = c.position := by
    rw [Cursor.position, hcurrent]
    rfl
  rw [← hplace]
  rfl

theorem foreseen_step (hsub : sub.Foreseen subs) :
    Foreseen [] Closes (step sub) fun i => step (subs i) := by
  have hnone : Foreseen [] Closes (pure none : Rule (Option Expr)) fun _ : ι => pure none :=
    foreseen_pure none
  refine ⟨foresees_sees ?_ hnone.foresees id, hnone.offers.unseen ?_⟩
  · exact foreseesAt_advance _ nofun fun _ => hsub.expression.map some
  · intro rest hnext
    exact hnext.ne id

theorem foreseesAt_countedLoop (hsub : sub.Foreseen subs) (token : Token) :
    ForeseesAt token Closes (countedLoop sub) fun i => countedLoop (subs i) := by
  refine (requires_keyword .for_).foreseesAt
    [.name, .symbol .equals, .name, .keyword .to_, .name, .keyword .then_, .name] (fun p => ?_) token
  refine requires_expectIdentifier.bind .name ⟨_, rfl⟩ fun var => ?_
  refine (requires_symbol .equals).bind (.symbol .equals) rfl fun _ => ?_
  refine hsub.expression.bind (fun start => ?_) (fun _ _ => trivial) fun _ htoken => htoken
  refine (requires_keyword .to_).bind (.keyword .to_) rfl fun _ => ?_
  refine hsub.expression.bind (fun stop => ?_) (fun _ _ => trivial) fun _ htoken => htoken
  refine (foreseen_step hsub).bind (fun by_ => ?_) (fun _ _ => trivial) fun _ htoken => htoken
  refine (requires_keyword .then_).bind (.keyword .then_) rfl fun _ => ?_
  exact (foreseen_body hsub .for_).map fun b => Expr.forTo var start stop by_ b p

theorem foreseesAt_conditionalLoop (hsub : sub.Foreseen subs) (token : Token) :
    ForeseesAt token Closes (conditionalLoop sub) fun i => conditionalLoop (subs i) := by
  refine (requires_keyword .while_).foreseesAt [.name, .keyword .then_, .name] (fun p => ?_) token
  refine hsub.expression.bind (fun condition => ?_) (fun _ _ => trivial) fun _ htoken => htoken
  refine (requires_keyword .then_).bind (.keyword .then_) rfl fun _ => ?_
  exact (foreseen_body hsub .while_).map fun b => Expr.whileDo condition b p

/-! ### Lists -/

section lists

variable {α : Type} {item : Rule α} {each : ι → Rule α} {us : List Lexeme}
  {follow follow₁ : Token → Prop} {closing : Symbol}

/-- What follows an item: a comma and further items, or the closing symbol. -/
def itemsTail (closing : Symbol) (further : Rule (List α)) (first : α) : Rule (List α) :=
  look Cursor.peek >>= fun token =>
    if token = .symbol .comma then
      advance >>= fun _ => further >>= fun others => pure (first :: others)
    else if token = .symbol closing then advance >>= fun _ => pure [first]
    else unexpected ("',' or " ++ (Token.symbol closing).describe)

theorem itemsTail_apply (closing : Symbol) (further : Rule (List α)) (first : α) (c : Cursor) :
    itemsTail closing further first c =
      if c.peek = .symbol .comma then
        (advance >>= fun _ => further >>= fun others => pure (first :: others)) c
      else if c.peek = .symbol closing then (advance >>= fun _ => pure [first]) c
      else (unexpected ("',' or " ++ (Token.symbol closing).describe) : Rule (List α)) c := by
  unfold itemsTail
  rw [Run.bind_apply]
  simp only [look]
  split
  · rfl
  · split <;> rfl

theorem offers_itemsTail (hclosing : closing ≠ .comma) (furthers : ι → Rule (List α)) (first : α) :
    Offers [.symbol closing] follow fun i => itemsTail closing (furthers i) first := by
  intro rest _
  refine ⟨[first], ?_⟩
  intro i c hc htext
  have hcurrent : c.current = ⟨.symbol closing, .start⟩ := hc.current_eq htext
  have hpeek : c.peek = .symbol closing := by rw [Cursor.peek, hcurrent]
  have hcomma : c.peek ≠ .symbol .comma := by
    rw [hpeek]
    simpa using hclosing
  obtain ⟨hrest, hleaves⟩ := hc.advance (by simp [hpeek])
  rw [htext, hcurrent] at hrest
  right
  refine ⟨c.advance, ?_, hleaves.reach, hleaves.clear, (List.cons.inj hrest).2.symm⟩
  exact (itemsTail_apply _ _ _ c).trans ((if_neg hcomma).trans (if_pos hpeek))

theorem offers_items (hclosing : closing ≠ .comma) (hoffers : Offers us follow₁ each)
    (hlead : follow₁ (.symbol closing)) :
    Offers (us ++ [.symbol closing]) follow fun x : ι × Nat => items (each x.1) closing x.2 := by
  have hstep : Offers (us ++ [.symbol closing]) follow
      fun x : ι × Nat => items (each x.1) closing (x.2 + 1) := by
    have heach : Offers us follow₁ fun x : ι × Nat => each x.1 :=
      hoffers.variants fun x => .inr ⟨x.1, rfl⟩
    exact heach.bind (fun first => offers_itemsTail hclosing _ first) fun _ _ => hlead
  refine hstep.variants ?_
  rintro ⟨i, _ | m⟩
  · exact .inl rfl
  · exact .inr ⟨(i, m), rfl⟩

/-- After an item, something is read or nothing fits. -/
theorem foreseesAt_itemsTail {further : Rule (List α)} {furthers : ι → Rule (List α)}
    (hfurther : Foreseen us follow further furthers) (first : α) (token : Token) :
    ForeseesAt token follow (itemsTail closing further first)
      fun i => itemsTail closing (furthers i) first := by
  by_cases hcomma : token = .symbol .comma
  · refine (foreseesAt_advance token (by simp [hcomma]) fun _ =>
      hfurther.map (first :: ·)).congr ?_ ?_
    · rintro c rfl
      exact (itemsTail_apply _ _ _ c).trans (if_pos hcomma)
    · rintro i c rfl
      exact (itemsTail_apply _ _ _ c).trans (if_pos hcomma)
  by_cases hclose : token = .symbol closing
  · refine (foreseesAt_advance token (by simp [hclose]) fun _ =>
      foreseen_pure [first]).congr ?_ ?_
    · rintro c rfl
      exact (itemsTail_apply _ _ _ c).trans ((if_neg hcomma).trans (if_pos hclose))
    · rintro i c rfl
      exact (itemsTail_apply _ _ _ c).trans ((if_neg hcomma).trans (if_pos hclose))
  · refine .of_unexpected ("',' or " ++ (Token.symbol closing).describe) ?_ ?_
    · rintro c rfl
      exact (itemsTail_apply _ _ _ c).trans ((if_neg hcomma).trans (if_neg hclose))
    · rintro i c rfl
      exact (itemsTail_apply _ _ _ c).trans ((if_neg hcomma).trans (if_neg hclose))

/-- Items and the closing symbol. What comes after the closing symbol does not matter. -/
theorem foreseesAt_items (hclosing : closing ≠ .comma) (hitem : Foreseen us follow₁ item each)
    (hlead : follow₁ (.symbol closing)) (hfollow : ∀ token, follow token → follow₁ token)
    (m : Nat) (token : Token) :
    ForeseesAt token follow (items item closing m)
      fun x : ι × Nat => items (each x.1) closing x.2 := by
  induction m generalizing token with
  | zero =>
    intro c _ _ _
    refine ⟨.exhausted, ?_⟩
    intro as d hrun
    cases hrun
  | succ m ih =>
    have hitem' : Foreseen us follow₁ item fun x : ι × Nat => each x.1 :=
      hitem.variants fun x => .inr ⟨x.1, rfl⟩
    have hfurther : Foreseen (us ++ [.symbol closing]) follow (items item closing m)
        fun x : ι × Nat => items (each x.1) closing x.2 :=
      ⟨.of_at ih, offers_items hclosing hitem.offers hlead⟩
    have hstep : ForeseesAt token follow (items item closing (m + 1))
        fun x : ι × Nat => items (each x.1) closing (x.2 + 1) :=
      hitem'.foresees.bind_at (foreseesAt_itemsTail hfurther)
        (fun first => offers_itemsTail hclosing _ first) (fun _ _ => hlead) hfollow token
    refine hstep.variants ?_
    rintro ⟨i, _ | m'⟩
    · exact .inl rfl
    · exact .inr ⟨(i, m'), rfl⟩

theorem foreseen_separated (closing : Symbol) (hclosing : closing ≠ .comma)
    (hitem : Foreseen us follow₁ item each)
    (hlead : follow₁ (.symbol closing)) (hfollow : ∀ token, follow token → follow₁ token)
    (m : Nat) :
    Foreseen [.symbol closing] follow (separated item closing m)
      fun x : ι × Nat => separated (each x.1) closing x.2 := by
  refine ⟨.of_at fun token => ?_,
    Offers.seen (.symbol closing) rfl fun _ => (foreseen_pure []).offers⟩
  by_cases hclose : token = .symbol closing
  · refine (foreseesAt_advance token (by simp [hclose]) fun _ =>
      foreseen_pure []).congr ?_ ?_
    · rintro c rfl
      exact (sees_apply _ _ _ c).trans (if_pos hclose)
    · rintro x c rfl
      exact (sees_apply _ _ _ c).trans (if_pos hclose)
  · refine (foreseesAt_items hclosing hitem hlead hfollow m token).congr ?_ ?_
    · rintro c rfl
      exact (sees_apply _ _ _ c).trans (if_neg hclose)
    · rintro x c rfl
      exact (sees_apply _ _ _ c).trans (if_neg hclose)

end lists

/-- The expressions between brackets or parentheses. -/
theorem foreseen_expressions (hsub : sub.Foreseen subs) (closing : Symbol)
    (hcloses : (Token.symbol closing).Closes) (hclosing : closing ≠ .comma) (m : Nat) :
    Foreseen [.symbol closing] Closes (separated sub.expression closing m)
      fun x : ι × Nat => separated (subs x.1).expression closing x.2 :=
  foreseen_separated closing hclosing hsub.expression hcloses (fun _ htoken => htoken) m

theorem optionalName_of_name {c : Cursor} {name : String} (h : c.peek = .identifier name) :
    optionalName c = (advance >>= fun _ => pure (some name)) c := by
  rw [optionalName, Run.bind_apply]
  simp only [look, h]

theorem optionalName_of_other {c : Cursor} (h : ¬ ∃ name, c.peek = .identifier name) :
    optionalName c = (.value none, c) := by
  rw [optionalName, Run.bind_apply]
  simp only [look]
  generalize htoken : c.peek = token at h
  cases token with
  | identifier name => exact absurd ⟨name, rfl⟩ h
  | _ => rfl

theorem foreseen_optionalName :
    Foreseen [] (fun token => ¬ ∃ name, token = .identifier name) optionalName
      fun _ : ι => optionalName := by
  refine ⟨?_, ?_⟩
  · intro c hc hlegible
    by_cases hname : ∃ name, c.peek = .identifier name
    · obtain ⟨name, hpeek⟩ := hname
      refine ((foreseesAt_advance (.identifier name) nofun fun _ =>
        foreseen_pure (some name)).congr ?_ ?_ c hc hlegible hpeek).1
      · exact fun _ hpeek' => optionalName_of_name hpeek'
      · exact fun _ _ hpeek' => optionalName_of_name hpeek'
    · rw [optionalName_of_other hname]
      refine outlook_still hc ?_
      rintro _ c' (hsame | hother)
      · exact .inr (optionalName_of_other (hsame ▸ hname))
      · exact .inr (optionalName_of_other hother)
  · intro rest hother
    refine ⟨none, ?_⟩
    intro _ c hc htext
    refine .inr ⟨c, optionalName_of_other ?_, hc.ended.refl, hc.clear, htext⟩
    rw [← hc.ended.next_rest, htext]
    exact hother

theorem foreseesAt_functionDefinition (hsub : sub.Foreseen subs) (m : Nat) (token : Token) :
    ForeseesAt token Closes (functionDefinition sub m)
      fun x : ι × Nat => functionDefinition (subs x.1) x.2 := by
  have hsub' : sub.Foreseen fun x : ι × Nat => subs x.1 := hsub.reindex Prod.fst
  refine (requires_keyword .function).foreseesAt
    [.symbol .lparen, .symbol .rparen, .symbol .arrow, .name] (fun p => ?_) token
  refine foreseen_optionalName.bind (fun name => ?_) (fun _ _ => nofun) ?_
  · refine (requires_expect (.symbol .lparen) _ nofun).bind (.symbol .lparen) rfl fun _ => ?_
    have hparams : Foreseen [.symbol .rparen] (fun _ => True)
        (separated expectIdentifier .rparen m)
        fun x : ι × Nat => separated expectIdentifier .rparen x.2 :=
      foreseen_separated .rparen nofun (requires_expectIdentifier.foreseen .name ⟨_, rfl⟩) trivial
        (fun _ _ => trivial) m
    refine hparams.bind (fun params => ?_) (fun _ _ => trivial) fun _ _ => trivial
    exact (foreseen_functionBody hsub').map fun b => Expr.function name params b p
  · rintro t hcloses ⟨name, rfl⟩
    exact hcloses

/-! ### Atoms and tiers -/

theorem foreseesAt_grouping (hsub : sub.Foreseen subs) (token : Token) :
    ForeseesAt token Closes (grouping sub) fun i => grouping (subs i) := by
  refine (requires_symbol .lparen).foreseesAt [.name, .symbol .rparen] (fun _ => ?_) token
  refine hsub.expression.bind (fun e => ?_) (fun _ _ => trivial) fun _ htoken => htoken
  exact (requires_symbol .rparen).bind (.symbol .rparen) rfl fun _ => foreseen_pure e

theorem foreseesAt_listLiteral (hsub : sub.Foreseen subs) (m : Nat) (token : Token) :
    ForeseesAt token Closes (listLiteral sub m)
      fun x : ι × Nat => listLiteral (subs x.1) x.2 := by
  refine (requires_symbol .lbracket).foreseesAt [.symbol .rbracket] (fun p => ?_) token
  exact (foreseen_expressions hsub .rbracket trivial nofun m).map fun elements => Expr.list elements p

/-- A number that can be read. -/
theorem foreseesAt_number {token : Token} {text : String} {rule : Rule Expr} {rules : ι → Rule Expr}
    (hlegible : token.Legible → (Number.read? text).isSome) (hne : token ≠ .eof)
    (hrun : ∀ c : Cursor, c.peek = token → rule c = numberLiteral text c)
    (hruns : ∀ i (c : Cursor), c.peek = token → rules i c = numberLiteral text c) :
    ForeseesAt token Closes rule rules := by
  intro c hc hcursor hpeek
  have hsome := hlegible (hpeek ▸ hcursor.peek hc.ended)
  obtain ⟨value, hvalue⟩ := Option.isSome_iff_exists.mp hsome
  have hnumber : ForeseesAt token Closes
      (advance >>= fun read => pure (Expr.number value read.position))
      fun _ : ι => advance >>= fun read => pure (Expr.number value read.position) :=
    foreseesAt_advance token hne fun read => foreseen_pure _
  have hliteral : ∀ c' : Cursor, numberLiteral text c' =
      (advance >>= fun read => pure (Expr.number value read.position)) c' := by
    intro c'
    simp only [numberLiteral, hvalue]
  refine hnumber.congr ?_ ?_ c hc hcursor hpeek
  · intro c' hpeek'
    rw [hrun c' hpeek', hliteral]
  · intro i c' hpeek'
    rw [hruns i c' hpeek', hliteral]

theorem peek_bind_apply {α : Type} {after : Token → Rule α} {c : Cursor} {token : Token}
    (h : c.peek = token) : (look Cursor.peek >>= after) c = after token c := by
  subst h
  rfl

theorem foreseesAt_atom (hsub : sub.Foreseen subs) (m : Nat) (token : Token) :
    ForeseesAt token Closes (atom sub m) fun x : ι × Nat => atom (subs x.1) x.2 := by
  have hsub' : sub.Foreseen fun x : ι × Nat => subs x.1 := hsub.reindex Prod.fst
  -- the rule of the construct that the token opens, or the error that none is opened
  have hof {rule : Rule Expr} {rules : ι × Nat → Rule Expr}
      (h : ForeseesAt token Closes rule rules)
      (hrun : ∀ c : Cursor, c.peek = token → atom sub m c = rule c)
      (hruns : ∀ x (c : Cursor), c.peek = token → atom (subs x.1) x.2 c = rules x c) :
      ForeseesAt token Closes (atom sub m) fun x : ι × Nat => atom (subs x.1) x.2 :=
    h.congr hrun hruns
  have hnone (hrun : ∀ (s : Nested) (k : Nat) (c : Cursor), c.peek = token →
        atom s k c = unexpected atomStart c) :
      ForeseesAt token Closes (atom sub m) fun x : ι × Nat => atom (subs x.1) x.2 :=
    .of_unexpected atomStart (hrun sub m) fun x => hrun (subs x.1) x.2
  cases token with
  | int text =>
    exact foreseesAt_number id nofun (fun _ hpeek => peek_bind_apply hpeek)
      fun _ _ hpeek => peek_bind_apply hpeek
  | float text =>
    exact foreseesAt_number id nofun (fun _ hpeek => peek_bind_apply hpeek)
      fun _ _ hpeek => peek_bind_apply hpeek
  | str value =>
    exact hof (foreseesAt_advance _ nofun fun read => foreseen_pure (.text value read.position))
      (fun _ hpeek => peek_bind_apply hpeek) fun _ _ hpeek => peek_bind_apply hpeek
  | identifier name =>
    exact hof (foreseesAt_advance _ nofun fun read => foreseen_pure (.name name read.position))
      (fun _ hpeek => peek_bind_apply hpeek) fun _ _ hpeek => peek_bind_apply hpeek
  | symbol mark =>
    cases mark with
    | lparen =>
      exact hof (foreseesAt_grouping hsub' _) (fun _ hpeek => peek_bind_apply hpeek)
        fun _ _ hpeek => peek_bind_apply hpeek
    | lbracket =>
      exact hof (foreseesAt_listLiteral hsub m _) (fun _ hpeek => peek_bind_apply hpeek)
        fun _ _ hpeek => peek_bind_apply hpeek
    | _ => exact hnone fun _ _ _ hpeek => peek_bind_apply hpeek
  | keyword word =>
    cases word with
    | if_ =>
      exact hof (foreseesAt_conditional hsub m) (fun _ hpeek => peek_bind_apply hpeek)
        fun _ _ hpeek => peek_bind_apply hpeek
    | for_ =>
      exact hof (foreseesAt_countedLoop hsub' _) (fun _ hpeek => peek_bind_apply hpeek)
        fun _ _ hpeek => peek_bind_apply hpeek
    | while_ =>
      exact hof (foreseesAt_conditionalLoop hsub' _) (fun _ hpeek => peek_bind_apply hpeek)
        fun _ _ hpeek => peek_bind_apply hpeek
    | function =>
      exact hof (foreseesAt_functionDefinition hsub m _) (fun _ hpeek => peek_bind_apply hpeek)
        fun _ _ hpeek => peek_bind_apply hpeek
    | _ => exact hnone fun _ _ _ hpeek => peek_bind_apply hpeek
  | malformed text => exact hnone fun _ _ _ hpeek => peek_bind_apply hpeek
  | newline => exact hnone fun _ _ _ hpeek => peek_bind_apply hpeek
  | eof => exact hnone fun _ _ _ hpeek => peek_bind_apply hpeek

/-! ### Tiers -/

theorem takes_peek {α : Type} {after : Token → Rule α} {a : α} {ts rest : List Located}
    (h : (after (next (ts ++ rest))).Takes a ts rest) :
    Takes a ts rest (look Cursor.peek >>= after : Rule α) := by
  intro c hc htext
  have hpeek : c.peek = next (ts ++ rest) := by rw [← hc.ended.next_rest, htext]
  rw [peek_bind_apply hpeek]
  exact h c hc htext

/-- A name is an atom. -/
theorem offers_atom (subs : ι → Nested) :
    Offers [.name] Closes fun x : ι × Nat => atom (subs x.1) x.2 := by
  intro rest _
  refine ⟨.name "x" .start, ?_⟩
  intro x
  refine takes_peek ?_
  intro c hc htext
  have hcurrent : c.current = ⟨.identifier "x", .start⟩ := hc.current_eq htext
  have hne : c.peek ≠ .eof := by
    rw [Cursor.peek, hcurrent]
    simp
  obtain ⟨hrest, hleaves⟩ := hc.advance hne
  rw [htext, hcurrent] at hrest
  right
  refine ⟨c.advance, ?_, hleaves.reach, hleaves.clear, (List.cons.inj hrest).2.symm⟩
  show (Outcome.value (Expr.name "x" c.current.position), c.advance) = _
  rw [hcurrent]

theorem offers_call (subs : ι → Nested) :
    Offers [.name] Closes fun x : ι × Nat => call (subs x.1) x.2 := by
  refine (offers_atom subs).bind (fun callee => ?_) fun _ hnext => hnext
  refine (foreseen_pure callee).offers.unseen ?_
  intro rest hnext
  exact hnext.ne id

theorem foreseen_call (hsub : sub.Foreseen subs) (m : Nat) :
    Foreseen [.name] Closes (call sub m) fun x : ι × Nat => call (subs x.1) x.2 := by
  refine ⟨?_, offers_call subs⟩
  have harguments : ∀ callee : Expr, Foreseen [] Closes
      (sees (.symbol .lparen) >>= fun seen => if seen = true then
        advance >>= fun _ => separated sub.expression .rparen m >>= fun arguments =>
          pure (Expr.call callee arguments callee.position)
        else pure callee)
      fun x : ι × Nat => sees (.symbol .lparen) >>= fun seen => if seen = true then
        advance >>= fun _ => separated (subs x.1).expression .rparen x.2 >>= fun arguments =>
          pure (Expr.call callee arguments callee.position)
        else pure callee := by
    intro callee
    have hnone : Foreseen [] Closes (pure callee : Rule Expr) fun _ : ι × Nat => pure callee :=
      foreseen_pure callee
    refine ⟨foresees_sees ?_ hnone.foresees id, hnone.offers.unseen ?_⟩
    · exact foreseesAt_advance _ nofun fun _ =>
        (foreseen_expressions hsub .rparen trivial nofun m).map fun arguments =>
          Expr.call callee arguments callee.position
    · intro rest hnext
      exact hnext.ne id
  exact (Foresees.of_at (foreseesAt_atom hsub m)).bind harguments (fun _ hnext => hnext)
    fun _ htoken => htoken

theorem offers_power (subs : ι → Nested) :
    Offers [.name] Closes fun x : ι × Nat =>
      power (subs x.1) (factor (subs x.1) x.2) (x.2 + 1) := by
  have hcall : Offers [.name] Closes fun x : ι × Nat => call (subs x.1) (x.2 + 1) :=
    (offers_call subs).variants fun x => .inr ⟨(x.1, x.2 + 1), rfl⟩
  refine hcall.bind (fun base => ?_) fun _ hnext => hnext
  exact (offers_chain BinaryOperator.isPower (fun x : ι × Nat => factor (subs x.1) x.2)
    base).variants fun x => .inr ⟨(x, x.2 + 1), rfl⟩

theorem factor_of_none {m : Nat} {c : Cursor} (h : sign? c.peek = none) :
    factor sub (m + 1) c = power sub (factor sub m) (m + 1) c := by
  rw [factor, peek_bind_apply rfl, h]

theorem factor_of_some {m : Nat} {c : Cursor} {op : UnaryOperator} (h : sign? c.peek = some op) :
    factor sub (m + 1) c = (advance >>= fun read => factor sub m >>= fun operand =>
      pure (.unary op operand read.position)) c := by
  rw [factor, peek_bind_apply rfl, h]

theorem offers_factor (subs : ι → Nested) :
    Offers [.name] Closes fun x : ι × Nat => factor (subs x.1) x.2 := by
  have hstep : Offers [.name] Closes fun x : ι × Nat => factor (subs x.1) (x.2 + 1) := by
    intro rest hnext
    obtain ⟨e, he⟩ := offers_power subs rest hnext
    exact ⟨e, fun x => takes_peek (he x)⟩
  refine hstep.variants ?_
  rintro ⟨i, _ | m⟩
  · exact .inl rfl
  · exact .inr ⟨(i, m), rfl⟩

theorem foreseen_factor (hsub : sub.Foreseen subs) (m : Nat) :
    Foreseen [.name] Closes (factor sub m) fun x : ι × Nat => factor (subs x.1) x.2 := by
  refine ⟨?_, offers_factor subs⟩
  induction m with
  | zero => exact fun _ _ _ => .exhausted
  | succ m ih =>
    have hfactor : Foreseen [.name] Closes (factor sub m)
        fun x : ι × Nat => factor (subs x.1) x.2 :=
      ⟨ih, offers_factor subs⟩
    have hpower : Foresees Closes (power sub (factor sub m) (m + 1))
        fun x : ι × Nat => power (subs x.1) (factor (subs x.1) x.2) (x.2 + 1) := by
      have hcall : Foreseen [.name] Closes (call sub (m + 1))
          fun x : ι × Nat => call (subs x.1) (x.2 + 1) :=
        (foreseen_call hsub (m + 1)).variants fun x => .inr ⟨(x.1, x.2 + 1), rfl⟩
      have hexponents : ∀ base, Foreseen [] Closes
          (chain BinaryOperator.isPower (factor sub m) (m + 1) base)
          fun x : ι × Nat => chain BinaryOperator.isPower (factor (subs x.1) x.2) (x.2 + 1) base :=
        fun base => (foreseen_chain BinaryOperator.isPower hfactor (m + 1) base).variants fun x =>
          .inr ⟨(x, x.2 + 1), rfl⟩
      exact hcall.foresees.bind hexponents (fun _ hnext => hnext) fun _ htoken => htoken
    have hstep : Foresees Closes (factor sub (m + 1))
        fun x : ι × Nat => factor (subs x.1) (x.2 + 1) := by
      intro c hc hlegible
      cases hsign : sign? c.peek with
      | some op =>
        have hne : c.peek ≠ .eof := by
          intro heof
          rw [heof] at hsign
          cases hsign
        have hread := foreseesAt_advance _ hne fun read =>
          hfactor.map fun operand => Expr.unary op operand read.position
        refine (hread.congr ?_ ?_ c hc hlegible rfl).1
        · exact fun c' hpeek => factor_of_some (hpeek ▸ hsign)
        · exact fun x c' hpeek => factor_of_some (hpeek ▸ hsign)
      | none =>
        have hclosed : ∀ token : Token, token.Closes → sign? token = none := by
          intro token hcloses
          unfold Token.Closes at hcloses
          split at hcloses <;> first | rfl | exact hcloses.elim
        rw [factor_of_none hsign]
        refine (hpower c hc hlegible).congr hc ?_ (.inr ?_)
        · intro x c' _ hcurrent
          have hsame : c'.peek = c.peek := by rw [Cursor.peek, hcurrent]; rfl
          exact .inr ⟨x, factor_of_none (hsame ▸ hsign)⟩
        · rintro x c' - (hsame | hcloses)
          · exact .inr ⟨x, factor_of_none (hsame ▸ hsign)⟩
          · exact .inr ⟨x, factor_of_none (hclosed _ hcloses)⟩
    refine hstep.variants ?_
    rintro ⟨i, _ | m'⟩
    · exact .inl rfl
    · exact .inr ⟨(i, m'), rfl⟩

/-- A tier of chains over another tier, with the same bound. -/
theorem foreseen_tier (accepts : BinaryOperator → Bool) {operand : Rule Expr}
    {operands : ι × Nat → Rule Expr} (m : Nat) (h : Foreseen [.name] Closes operand operands) :
    Foreseen [.name] Closes (leftAssociative accepts operand m)
      fun x => leftAssociative accepts (operands x) x.2 :=
  (foreseen_leftAssociative accepts h m).variants fun x => .inr ⟨(x, x.2), rfl⟩

theorem offers_tier (accepts : BinaryOperator → Bool) {operands : ι × Nat → Rule Expr}
    (h : Offers [.name] Closes operands) :
    Offers [.name] Closes fun x => leftAssociative accepts (operands x) x.2 :=
  (offers_leftAssociative accepts h).variants fun x => .inr ⟨(x, x.2), rfl⟩

theorem foreseen_sum (hsub : sub.Foreseen subs) (m : Nat) :
    Foreseen [.name] Closes (sum sub m) fun x : ι × Nat => sum (subs x.1) x.2 :=
  foreseen_tier _ m (foreseen_tier _ m (foreseen_factor hsub m))

theorem offers_sum (subs : ι → Nested) :
    Offers [.name] Closes fun x : ι × Nat => sum (subs x.1) x.2 :=
  offers_tier _ (offers_tier _ (offers_factor subs))

theorem offers_comparison (subs : ι → Nested) :
    Offers [.name] Closes fun x : ι × Nat => comparison (subs x.1) x.2 := by
  have hsums : Offers [.name] Closes fun x : ι × Nat =>
      leftAssociative BinaryOperator.isComparison (sum (subs x.1) (x.2 + 1)) (x.2 + 1) :=
    (offers_tier BinaryOperator.isComparison (offers_sum subs)).variants fun x =>
      .inr ⟨(x.1, x.2 + 1), rfl⟩
  have hstep : Offers [.name] Closes fun x : ι × Nat => comparison (subs x.1) (x.2 + 1) :=
    hsums.unseen fun _ _ => nofun
  refine hstep.variants ?_
  rintro ⟨i, _ | m⟩
  · exact .inl rfl
  · exact .inr ⟨(i, m), rfl⟩

theorem foreseen_comparison (hsub : sub.Foreseen subs) (m : Nat) :
    Foreseen [.name] Closes (comparison sub m) fun x : ι × Nat => comparison (subs x.1) x.2 := by
  refine ⟨?_, offers_comparison subs⟩
  induction m with
  | zero => exact fun _ _ _ => .exhausted
  | succ m ih =>
    have hsums : Foreseen [.name] Closes
        (leftAssociative BinaryOperator.isComparison (sum sub (m + 1)) (m + 1))
        fun x : ι × Nat =>
          leftAssociative BinaryOperator.isComparison (sum (subs x.1) (x.2 + 1)) (x.2 + 1) :=
      (foreseen_tier BinaryOperator.isComparison (m + 1) (foreseen_sum hsub (m + 1))).variants
        fun x => .inr ⟨(x.1, x.2 + 1), rfl⟩
    have hoperand : Foreseen [.name] Closes (comparison sub m)
        fun x : ι × Nat => comparison (subs x.1) x.2 :=
      ⟨ih, offers_comparison subs⟩
    have hstep : Foresees Closes (comparison sub (m + 1))
        fun x : ι × Nat => comparison (subs x.1) (x.2 + 1) := by
      refine foresees_sees ?_ hsums.foresees id
      exact foreseesAt_advance _ nofun fun read =>
        hoperand.map fun operand => Expr.unary .not operand read.position
    refine hstep.variants ?_
    rintro ⟨i, _ | m'⟩
    · exact .inl rfl
    · exact .inr ⟨(i, m'), rfl⟩

/-! ### Expressions and statements -/

theorem offers_expressionOver (subs : ι → Nested) :
    Offers [.name] Closes fun x : ι × Nat => expressionOver (subs x.1) x.2 := by
  have hlogical : Offers [.name] Closes fun x : ι × Nat => logical (subs x.1) x.2 :=
    offers_tier BinaryOperator.isLogical (offers_comparison subs)
  exact (hlogical.expecting expressionStart).unseen fun _ _ => nofun

theorem foreseen_expressionOver (hsub : sub.Foreseen subs) (m : Nat) :
    Foreseen [.name] Closes (expressionOver sub m)
      fun x : ι × Nat => expressionOver (subs x.1) x.2 := by
  refine ⟨?_, offers_expressionOver subs⟩
  have hsub' : sub.Foreseen fun x : ι × Nat => subs x.1 := hsub.reindex Prod.fst
  have hlogical : Foreseen [.name] Closes (logical sub m)
      fun x : ι × Nat => logical (subs x.1) x.2 :=
    foreseen_tier BinaryOperator.isLogical m (foreseen_comparison hsub m)
  have hassignment : ForeseesAt (.keyword .var) Closes (assignment sub)
      fun x : ι × Nat => assignment (subs x.1) := by
    refine (requires_keyword .var).foreseesAt [.name, .symbol .equals, .name] (fun p => ?_) _
    refine requires_expectIdentifier.bind .name ⟨_, rfl⟩ fun name => ?_
    refine (requires_symbol .equals).bind (.symbol .equals) rfl fun _ => ?_
    exact hsub'.expression.map fun value => Expr.assign name value p
  exact foresees_sees hassignment (hlogical.foresees.expecting expressionStart) id

/-- What comes after an attempted statement: if it was read, others may follow. -/
def afterAttempt (further : Rule (List Expr)) : Option Expr → Rule (List Expr)
  | some e => further >>= fun rest => pure (e :: rest)
  | none => pure []

/-- The statements after line breaks, if there are any. -/
def afterBreak (ex : Rule Expr) (further : Rule (List Expr)) : Rule (List Expr) :=
  attempt ex >>= afterAttempt further

/-- What comes after a statement, by the number of line breaks after it. -/
def afterNewlines (ex : Rule Expr) (further : Rule (List Expr)) (count : Nat) : Rule (List Expr) :=
  if count = 0 then pure [] else afterBreak ex further

/-- Nothing is read after line breaks where no expression begins. -/
theorem afterBreak_of_closed {ex : Rule Expr} (hrefuses : ex.Refuses opensExpression)
    (further : Rule (List Expr)) {c : Cursor} (hclosed : c.peek.opensExpression = false) :
    (afterBreak ex further c).1 = .exhausted ∨ afterBreak ex further c = (.value [], c) := by
  rcases hrefuses c hclosed with ⟨e, hr⟩ | hr
  · right
    simp only [afterBreak, Run.bind_apply, attempt, hr, Cursor.rewind, Nat.sub_self,
      Nat.lt_irrefl, if_false]
    rfl
  · left
    simp only [afterBreak, Run.bind_apply, attempt, hr]

/-- A statement that fails after it has moved is given up. -/
theorem afterBreak_of_error {ex : Rule Expr} (further : Rule (List Expr)) {c d : Cursor}
    {e : SyntaxError} (hrun : ex c = (.error e, d)) (hclear : d.setback = none)
    (hmoved : c.index < d.index) :
    afterBreak ex further c = (.value [], { d with
      index := c.index
      setback := some ⟨c.index, e⟩
      log := .rewound (d.index - c.index) e :: d.log }) := by
  simp only [afterBreak, Run.bind_apply, attempt, hrun, rewind_of_moved e hclear hmoved]
  rfl

theorem peek_rewound {c d : Cursor} (h : d.tokens = c.tokens) (setback : Option Setback)
    (log : Log) : (⟨d.tokens, c.index, setback, log⟩ : Cursor).peek = c.peek :=
  Cursor.peek_of_same h rfl

section statements

variable {ex : Rule Expr} {exs : ι → Rule Expr}

theorem offers_afterBreak (hrefuses : ∀ i, (exs i).Refuses opensExpression)
    (furthers : ι → Rule (List Expr)) :
    Offers [] Closes fun i => afterBreak (exs i) (furthers i) := by
  intro rest hnext
  refine ⟨[], ?_⟩
  intro i c hc htext
  have hcloses : c.peek.Closes := by
    rw [← hc.ended.next_rest, htext]
    exact hnext
  rcases afterBreak_of_closed (hrefuses i) (furthers i) hcloses.opensExpression_eq_false with
    hbound | hrun
  · exact .inl hbound
  · exact .inr ⟨c, hrun, hc.ended.refl, hc.clear, htext⟩

theorem offers_afterNewlines (hrefuses : ∀ i, (exs i).Refuses opensExpression)
    (furthers : ι → Rule (List Expr)) (count : Nat) :
    Offers [] Closes fun i => afterNewlines (exs i) (furthers i) count := by
  unfold afterNewlines
  split
  · exact (foreseen_pure []).offers
  · exact offers_afterBreak hrefuses furthers

theorem offers_furtherStatements (hrefuses : ∀ i, (exs i).Refuses opensExpression) :
    Offers [] Closes fun x : ι × Nat => furtherStatements (exs x.1) x.2 := by
  have hskip : Offers [] (· ≠ .newline) fun _ : ι × Nat => skipNewlines :=
    foreseen_skipNewlines.offers
  have hstep : Offers [] Closes fun x : ι × Nat => furtherStatements (exs x.1) (x.2 + 1) := by
    refine hskip.bind (fun count => ?_) fun _ hnext => hnext.ne id
    exact offers_afterNewlines (fun x : ι × Nat => hrefuses x.1) _ count
  refine hstep.variants ?_
  rintro ⟨i, _ | m⟩
  · exact .inl rfl
  · exact .inr ⟨(i, m), rfl⟩

/-- After line breaks a statement is read or given up, or there is none. -/
theorem outlook_afterBreak (hex : Foresees Closes ex exs)
    (hrefuses : ex.Refuses opensExpression) (hrefuses' : ∀ i, (exs i).Refuses opensExpression)
    (hcommits : ex.Commits fun token => token.opensExpression ∧ token.Legible)
    {further : Rule (List Expr)} {furthers : ι → Rule (List Expr)}
    (hfurther : ForeseesOrGivesUp Closes further furthers) (hoffers : Offers [] Closes furthers)
    {c : Cursor} (hc : c.Fresh) (hlegible : c.Legible) :
    Outlook (c.index ≤ ·) Closes (fun i => afterBreak (exs i) (furthers i)) c
      (afterBreak ex further c) := by
  cases hopens : c.peek.opensExpression with
  | false =>
    rcases hr : afterBreak ex further c with ⟨a | e | _, d⟩
    · obtain hbound | hrun := afterBreak_of_closed hrefuses further hopens
      · rw [hr] at hbound
        cases hbound
      · rw [hr] at hrun
        cases hrun
        refine outlook_still hc ?_
        rintro i c' (hsame | hcloses)
        · exact afterBreak_of_closed (hrefuses' i) _ (hsame ▸ hopens)
        · exact afterBreak_of_closed (hrefuses' i) _ hcloses.opensExpression_eq_false
    · obtain hbound | hrun := afterBreak_of_closed hrefuses further hopens
      · rw [hr] at hbound
        cases hbound
      · rw [hr] at hrun
        cases hrun
    · exact .exhausted
  | true =>
    have houtlook := hex c hc hlegible
    have hmoved := hcommits c hc.ended ⟨hopens, hlegible.peek hc.ended⟩
    have hafters : ∀ read, Offers [] Closes fun i => afterAttempt (furthers i) read := by
      rintro (_ | e)
      · exact (foreseen_pure []).offers
      · exact hoffers.map (e :: ·)
    rcases hr : ex c with ⟨e | e | _, d⟩ <;> rw [hr] at houtlook hmoved
    · -- the statement is read, and others may follow
      cases houtlook with
      | value ts text leaves takes =>
        have hafter : Outlook (c.index ≤ ·) Closes (fun i => afterAttempt (furthers i) (some e)) d
            (afterAttempt further (some e) d) :=
          (hfurther.map (e :: ·) d (leaves.fresh hc) (leaves.reach.legible hlegible)).mono
            fun index hlt => Nat.le_trans leaves.reach.index_le (Nat.le_of_lt hlt)
        have hrun : afterBreak ex further c = afterAttempt further (some e) d := by
          simp only [afterBreak, Run.bind_apply, attempt, hr]
        rw [hrun]
        exact hafter.prepend Closes hc text leaves
          (fun rest hnext i => (takes rest hnext i).attempt) (hafters (some e))
          (fun _ hnext => hnext) fun _ htoken => htoken
      | gaveUp moved ts rest may => exact may.elim
    · -- the statement has failed further on, and is given up
      cases houtlook with
      | error moved ts rest text reach clear index furthest still rejects viable =>
        obtain ⟨⟨⟩⟩ | hlt := hmoved
        have hlt : c.index < d.index := hlt
        have hsome : ts ≠ [] := by
          rintro rfl
          simp only [List.length_nil] at furthest
          omega
        rw [afterBreak_of_error further hr clear hlt]
        refine .gaveUp 0 ts rest (Nat.le_refl _) text ⟨reach.tokens, Nat.le_refl _, hc.ended.inside⟩
          rfl ?_ rfl (List.length_pos_iff.mpr hsome) ?_ ?_
        · rw [peek_rewound reach.tokens]
          exact hopens
        · intro i c' rest' hc' htext'
          obtain hbound | ⟨d', hrun, hreach, hclear, hindex⟩ := rejects i c' rest' hc' htext'
          · exact .inl (bind_exhausted _ (attempt_of_exhausted hbound))
          · right
            refine ⟨_, _, afterBreak_of_error _ hrun hclear (by omega), ?_, rfl, ?_, rfl⟩
            · exact ⟨hreach.tokens, Nat.le_refl _, hc'.ended.inside⟩
            · obtain ⟨t, ts, rfl⟩ := List.exists_cons_of_ne_nil hsome
              have hpeek : c'.peek = c.peek := by
                rw [Cursor.peek, hc'.current_eq htext', Cursor.peek, hc.current_eq text]
              rw [peek_rewound hreach.tokens, hpeek]
              exact hopens
        · obtain ⟨us, hus⟩ := viable hsome
          have hattempts : Completes Closes (fun i => attempt (exs i)) ts := by
            refine ⟨us, ?_⟩
            intro rest' hnext
            obtain ⟨a, ha⟩ := hus rest' hnext
            exact ⟨some a, fun i => (ha i).attempt⟩
          exact hattempts.bind hafters fun _ hnext => hnext
    · have hbound : (afterBreak ex further c).1 = .exhausted :=
        bind_exhausted _ (attempt_of_exhausted (by rw [hr]))
      rcases hr' : afterBreak ex further c with ⟨a | e | _, d'⟩ <;> rw [hr'] at hbound <;>
        cases hbound
      exact .exhausted

theorem foreseesOrGivesUp_furtherStatements (hex : Foresees Closes ex exs)
    (hrefuses : ex.Refuses opensExpression) (hrefuses' : ∀ i, (exs i).Refuses opensExpression)
    (hcommits : ex.Commits fun token => token.opensExpression ∧ token.Legible) (m : Nat) :
    ForeseesOrGivesUp Closes (furtherStatements ex m)
      fun x : ι × Nat => furtherStatements (exs x.1) x.2 := by
  induction m with
  | zero => exact fun _ _ _ => .exhausted
  | succ m ih =>
    have hex' : Foresees Closes ex fun x : ι × Nat => exs x.1 :=
      hex.variants fun x => .inr ⟨x.1, rfl⟩
    have hstep : ForeseesOrGivesUp Closes (furtherStatements ex (m + 1))
        fun x : ι × Nat => furtherStatements (exs x.1) (x.2 + 1) := by
      intro c hc hlegible
      have hskip := (foreseen_skipNewlines (ι := ι × Nat)).foresees c hc hlegible
      have hbreaks := hc.index_lt_skipNewlines
      change Outlook _ _ _ _ (.value c.skipNewlines.1, c.skipNewlines.2) at hskip
      change Outlook _ _ _ c (afterNewlines ex (furtherStatements ex m) c.skipNewlines.1
        c.skipNewlines.2)
      generalize c.skipNewlines.1 = count, c.skipNewlines.2 = d at hskip hbreaks
      cases hskip with
      | value ts text leaves takes =>
        have hoffers := offers_afterNewlines (fun x : ι × Nat => hrefuses' x.1)
          (fun x => furtherStatements (exs x.1) x.2) count
        have hafter : Outlook (c.index < ·) Closes
            (fun x : ι × Nat => afterNewlines (exs x.1) (furtherStatements (exs x.1) x.2) count) d
            (afterNewlines ex (furtherStatements ex m) count d) := by
          unfold afterNewlines
          split
          · exact ((foreseen_pure []).foresees d (leaves.fresh hc)
              (leaves.reach.legible hlegible)).mono fun _ hmay => hmay.elim
          · next hsome =>
            exact (outlook_afterBreak hex' hrefuses (fun x => hrefuses' x.1) hcommits ih
              (offers_furtherStatements hrefuses') (leaves.fresh hc)
              (leaves.reach.legible hlegible)).mono fun index hle =>
                Nat.lt_of_lt_of_le (hbreaks hsome) hle
        exact hafter.prepend (· ≠ .newline) hc text leaves takes hoffers
          (fun _ hnext => hnext.ne id) fun _ htoken => htoken.ne id
      | gaveUp moved ts rest may => exact may.elim
    refine hstep.variants ?_
    rintro ⟨i, _ | m'⟩
    · exact .inl rfl
    · exact .inr ⟨(i, m'), rfl⟩

theorem offers_statementsOver (hoffers : Offers [.name] Closes exs)
    (hrefuses : ∀ i, (exs i).Refuses opensExpression) :
    Offers [.name] Closes fun x : ι × Nat => statementsOver (exs x.1) x.2 := by
  have hskip : Offers [] (· ≠ .newline) fun _ : ι × Nat => skipNewlines :=
    foreseen_skipNewlines.offers
  have hfirst : Offers [.name] Closes fun x : ι × Nat => exs x.1 :=
    hoffers.variants fun x => .inr ⟨x.1, rfl⟩
  refine hskip.bind (fun _ => ?_) fun _ _ => nofun
  exact hfirst.bind (fun first => (offers_furtherStatements hrefuses).map fun rest =>
    Expr.list (first :: rest) first.position) fun _ hnext => hnext

theorem foreseesOrGivesUp_statementsOver (hex : Foreseen [.name] Closes ex exs)
    (hrefuses : ex.Refuses opensExpression) (hrefuses' : ∀ i, (exs i).Refuses opensExpression)
    (hcommits : ex.Commits fun token => token.opensExpression ∧ token.Legible) (m : Nat) :
    ForeseesOrGivesUp Closes (statementsOver ex m)
      fun x : ι × Nat => statementsOver (exs x.1) x.2 := by
  have hfirst : Foreseen [.name] Closes ex fun x : ι × Nat => exs x.1 :=
    hex.variants fun x => .inr ⟨x.1, rfl⟩
  have hfurther := offers_furtherStatements hrefuses'
  have hrest : ∀ first : Expr, Offers [] Closes fun x : ι × Nat =>
      furtherStatements (exs x.1) x.2 >>= fun rest =>
        pure (Expr.list (first :: rest) first.position) :=
    fun first => hfurther.map fun rest => Expr.list (first :: rest) first.position
  have hboth : Offers [.name] Closes fun x : ι × Nat => exs x.1 >>= fun first =>
      furtherStatements (exs x.1) x.2 >>= fun rest =>
        pure (Expr.list (first :: rest) first.position) :=
    hfirst.offers.bind hrest fun _ hnext => hnext
  refine .bind foreseen_skipNewlines.foresees (fun _ => ?_) (fun _ => hboth) (fun _ _ => nofun)
    fun _ htoken => htoken.ne id
  refine .bind hfirst.foresees (fun first => ?_) hrest (fun _ hnext => hnext) fun _ htoken => htoken
  exact (foreseesOrGivesUp_furtherStatements hex.foresees hrefuses hrefuses' hcommits m).map
    fun rest => Expr.list (first :: rest) first.position

end statements

theorem offers_expression : Offers [.name] Closes expression := by
  refine (offers_expressionOver nested).variants ?_
  rintro (_ | m)
  · exact .inl rfl
  · exact .inr ⟨(m, m), rfl⟩

theorem foreseen_nested (m : Nat) : (nested m).Foreseen nested := by
  have hstatements : ∀ m, Foresees Closes (expression m) expression →
      (nested m).Foreseen nested := by
    intro m hex
    have hboth : Foreseen [.name] Closes (expression m) expression := ⟨hex, offers_expression⟩
    have hruns := runs_nested m
    refine ⟨hboth, ?_, ?_, hruns.expression.mono (Nat.zero_le _), hruns.statements.mono (Nat.zero_le _)⟩
    · exact (foreseesOrGivesUp_statementsOver hboth (refuses_expression m) refuses_expression
        (commits_expression m) m).variants fun k => .inr ⟨(k, k), rfl⟩
    · exact (offers_statementsOver offers_expression refuses_expression).variants fun k =>
        .inr ⟨(k, k), rfl⟩
  refine hstatements m ?_
  induction m with
  | zero => exact fun _ _ _ => .exhausted
  | succ m ih =>
    refine (foreseen_expressionOver (hstatements m ih) m).foresees.variants ?_
    rintro (_ | k)
    · exact .inl rfl
    · exact .inr ⟨(k, k), rfl⟩

end Grammar

end LineScript
