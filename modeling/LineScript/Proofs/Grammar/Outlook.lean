import LineScript.Proofs.Lexer.Shapes
import LineScript.Proofs.Grammar.Lookahead

/-!
# What a reading shows about other readings

A rule of the grammar has seen the tokens up to the one where it ends, and no more. So how it ends
says something about every list of tokens that begins in the same way, and about the same rule with
other bounds.

  * `Rule.Takes a ts rest rule`: the rule reads `ts` as `a` if `rest` follows.
  * `Rule.Rejects e moved ts rule`: the rule fails with `e` after `ts`, at the token that `e` names,
    whatever comes after this token. `Rule.GivesUp` is the same for a statement that is given up.
  * `Rule.Completes follow rules ts`: some lexemes complete `ts` to a text of the rules, if a token
    of `follow` comes next.
  * `Outlook` puts this together for the three ways in which a rule may end, and `Foresees` says
    that a rule always ends in one of them. `Foreseen` adds a text that the rule can read.

**Key idea.** A text of one rule and then of another is a text of both, so all that is needed to
complete a text is something to read for each of the rules that are still to come, and that it ends
what is before it. A rule that fails at its very first token has read nothing: there, what could be
read in its place completes the text. A rule that is at its bound is let off, as everywhere.
-/

namespace LineScript

open Run

/-! ### Tokens that end an expression -/

/-- The tokens that end whatever expression they follow. -/
def Token.Closes : Token → Prop
  | symbol .rparen | symbol .rbracket | symbol .comma | keyword .then_ | keyword .to_
  | keyword .end_ | eof => True
  | _ => False

theorem Token.Closes.ne {t token : Token} (h : t.Closes) (hopen : ¬ token.Closes) : t ≠ token := by
  rintro rfl
  exact hopen h

theorem Token.Closes.opensExpression_eq_false {t : Token} (h : t.Closes) :
    t.opensExpression = false := by
  unfold Token.Closes at h
  split at h <;> first | rfl | exact h.elim

theorem Token.Closes.ofToken?_eq_none {t : Token} (h : t.Closes) :
    BinaryOperator.ofToken? t = none := by
  unfold Token.Closes at h
  split at h <;> first | rfl | exact h.elim

/-! ### Tokens to complete a text with -/

/-- A token that a lexeme can be. -/
abbrev Lexeme := { token : Token // token.IsLexeme }

/-- A keyword. -/
def Lexeme.keyword (word : Keyword) : Lexeme :=
  ⟨.keyword word, trivial, nofun⟩

/-- A symbol. -/
def Lexeme.symbol (mark : Symbol) : Lexeme :=
  ⟨.symbol mark, trivial, nofun⟩

/-- Some name. -/
def Lexeme.name : Lexeme :=
  ⟨.identifier "x", ⟨⟨'x', [], rfl, rfl, rfl⟩, by decide⟩, nofun⟩

/-- Lexemes without a place of their own. -/
def placed (us : List Lexeme) : List Located :=
  us.map fun u => ⟨u.val, .start⟩

theorem placed_append (us vs : List Lexeme) : placed (us ++ vs) = placed us ++ placed vs :=
  List.map_append

theorem isLexeme_placed (us : List Lexeme) : ∀ t ∈ placed us, t.token.IsLexeme := by
  intro t ht
  obtain ⟨u, -, rfl⟩ := List.mem_map.mp ht
  exact u.property

/-! ### Readings that are let off at their bound -/

namespace Cursor

/-- The tokens end with the end of input, and no attempt is on record. -/
structure Fresh (c : Cursor) : Prop where
  /-- The tokens end with the end of input, and the cursor stands on one of them. -/
  ended : c.Ended
  /-- Nothing is on record. -/
  clear : c.setback = none

/-- `d` is a later state of the reading `c`, with nothing on record, and the tokens `rest` are
left. -/
structure Leaves (c d : Cursor) (rest : List Located) : Prop where
  /-- The reading has gone on. -/
  reach : c.Reaches d
  /-- Nothing is on record. -/
  clear : d.setback = none
  /-- What is left. -/
  rest : d.rest = rest

variable {c d d' : Cursor} {ts rest rest' : List Located}

theorem Leaves.fresh (h : c.Leaves d rest) (hc : c.Fresh) : d.Fresh :=
  ⟨h.reach.ended hc.ended, h.clear⟩

theorem Leaves.trans (h : c.Leaves d rest) (h' : d.Leaves d' rest') : c.Leaves d' rest' :=
  ⟨h.reach.trans h'.reach, h'.clear, h'.rest⟩

/-- What has been read is counted by the index. -/
theorem Leaves.index (h : c.Leaves d rest) (hc : c.Fresh) (htext : c.rest = ts ++ rest) :
    d.index = c.index + ts.length := by
  have hbefore := c.rest_length
  have hafter := d.rest_length
  rw [htext, List.length_append] at hbefore
  rw [h.rest, h.reach.tokens] at hafter
  have hinside := h.reach.inside
  have hinside' := hc.ended.inside
  omega

theorem current_of_same (htokens : d.tokens = c.tokens) (hindex : d.index = c.index) :
    d.current = c.current := by
  simp only [current, htokens, hindex]

theorem peek_of_same (htokens : d.tokens = c.tokens) (hindex : d.index = c.index) :
    d.peek = c.peek := by
  rw [peek, current_of_same htokens hindex, peek]

/-- On the same first token, the current tokens are the same. -/
theorem Fresh.current_eq (hc : c.Fresh) {t : Located} (htext : c.rest = t :: ts) :
    c.current = t := by
  have hrest := hc.ended.rest_eq
  rw [htext] at hrest
  exact (List.cons.inj hrest).1.symm

end Cursor

theorem Run.bind_exhausted {σ ε α β : Type} {run : Run σ ε α} {s : σ} (next : α → Run σ ε β)
    (h : (run s).1 = .exhausted) : ((run >>= next) s).1 = .exhausted := by
  rw [Run.bind_apply]
  rcases hr : run s with ⟨a | e | _, d⟩ <;> rw [hr] at h <;> cases h

namespace Rule

variable {ι κ α β : Type}

/-- The rule reads `ts` as `a` if `rest` follows, unless it is at its bound. -/
def Takes (a : α) (ts rest : List Located) (rule : Rule α) : Prop :=
  ∀ c : Cursor, c.Fresh → c.rest = ts ++ rest →
    (rule c).1 = .exhausted ∨ ∃ d, rule c = (.value a, d) ∧ c.Leaves d rest

/-- Where the tokens `ts` are followed by the token that `e` names, the rule fails with `e` and has
moved so many tokens, unless it is at its bound. -/
def Rejects (e : SyntaxError) (moved : Nat) (ts : List Located) (rule : Rule α) : Prop :=
  ∀ (c : Cursor) (rest : List Located), c.Fresh → c.rest = ts ++ ⟨e.found, e.position⟩ :: rest →
    (rule c).1 = .exhausted ∨ ∃ d, rule c = (.error e, d) ∧ c.Reaches d ∧ d.setback = none ∧
      d.index = c.index + moved

/-- In the same way, but the rule gives up a statement and has the error on record. -/
def GivesUp (e : SyntaxError) (moved : Nat) (ts : List Located) (rule : Rule α) : Prop :=
  ∀ (c : Cursor) (rest : List Located), c.Fresh → c.rest = ts ++ ⟨e.found, e.position⟩ :: rest →
    (rule c).1 = .exhausted ∨ ∃ a d, rule c = (.value a, d) ∧ c.Reaches d ∧
      d.setback = some ⟨d.index, e⟩ ∧ d.peek.opensExpression ∧ d.index = c.index + moved

/-- The tokens `ts` can be completed: there are lexemes with which all the rules read a text. -/
def Completes (follow : Token → Prop) (rules : ι → Rule α) (ts : List Located) : Prop :=
  ∃ us : List Lexeme, ∀ rest, follow (LineScript.next rest) →
    ∃ a, ∀ i, (rules i).Takes a (ts ++ placed us) rest

/-- The lexemes `us` are a text of all the rules. -/
def Offers (us : List Lexeme) (follow : Token → Prop) (rules : ι → Rule α) : Prop :=
  ∀ rest, follow (LineScript.next rest) → ∃ a, ∀ i, (rules i).Takes a (placed us) rest

end Rule

open Rule

/-- How a rule that was started at `c` may end, and what follows for the rules `rules`, which are
the same rule with other bounds. -/
inductive Outlook {ι α : Type} (mayGiveUp : Nat → Prop) (follow : Token → Prop)
    (rules : ι → Rule α) (c : Cursor) : Outcome SyntaxError α × Cursor → Prop
  /-- With a value: what has been read is read in the same way, whatever comes after the current
  token, and also if a token of `follow` comes in its place. -/
  | value {a : α} {d : Cursor} (ts : List Located) (text : c.rest = ts ++ d.rest)
    (leaves : c.Leaves d d.rest)
    (takes : ∀ rest, next rest = d.peek ∨ follow (next rest) → ∀ i, (rules i).Takes a ts rest) :
    Outlook mayGiveUp follow rules c (.value a, d)
  /-- With an error at the token after `ts`: the same error is found whatever comes after this
  token, and `ts` can be completed. -/
  | error {e : SyntaxError} {d : Cursor} (moved : Nat) (ts rest : List Located)
    (text : c.rest = ts ++ ⟨e.found, e.position⟩ :: rest) (reach : c.Reaches d)
    (clear : d.setback = none) (index : d.index = c.index + moved)
    (furthest : moved ≤ ts.length) (still : moved = 0 → ts = [])
    (rejects : ∀ i, (rules i).Rejects e moved ts)
    (viable : ts ≠ [] → Completes follow rules ts) :
    Outlook mayGiveUp follow rules c (.error e, d)
  /-- With a statement that was given up because of an error at the token after `ts`. -/
  | gaveUp {a : α} {e : SyntaxError} {d : Cursor} (moved : Nat) (ts rest : List Located)
    (may : mayGiveUp d.index) (text : c.rest = ts ++ ⟨e.found, e.position⟩ :: rest)
    (reach : c.Reaches d) (recorded : d.setback = some ⟨d.index, e⟩)
    (opens : d.peek.opensExpression) (index : d.index = c.index + moved)
    (furthest : moved < ts.length) (givesUp : ∀ i, (rules i).GivesUp e moved ts)
    (viable : Completes follow rules ts) : Outlook mayGiveUp follow rules c (.value a, d)
  /-- At the bound. -/
  | exhausted {d : Cursor} : Outlook mayGiveUp follow rules c (.exhausted, d)

/-- A rule that ends as described above and gives up nothing. -/
def Foresees {ι α : Type} (follow : Token → Prop) (rule : Rule α) (rules : ι → Rule α) : Prop :=
  ∀ c : Cursor, c.Fresh → c.Legible → Outlook (fun _ => False) follow rules c (rule c)

/-- A rule that may also give up a statement after it has moved. -/
def ForeseesOrGivesUp {ι α : Type} (follow : Token → Prop) (rule : Rule α) (rules : ι → Rule α) :
    Prop :=
  ∀ c : Cursor, c.Fresh → c.Legible → Outlook (c.index < ·) follow rules c (rule c)

/-- The rule ends as foreseen, and the lexemes `us` are a text of it. -/
structure Foreseen {ι α : Type} (us : List Lexeme) (follow : Token → Prop) (rule : Rule α)
    (rules : ι → Rule α) : Prop where
  /-- However the rule ends, the same follows for the other rules. -/
  foresees : Foresees follow rule rules
  /-- There is something to read for all the rules. -/
  offers : Offers us follow rules

/-! ### One rule after another -/

section combinators

variable {ι κ α β : Type}

theorem Rule.Takes.bind {rule : Rule α} {after : α → Rule β} {a : α} {b : β}
    {ts us rest : List Located} (h : rule.Takes a ts (us ++ rest))
    (hafter : (after a).Takes b us rest) : (rule >>= after).Takes b (ts ++ us) rest := by
  intro c hc htext
  rw [List.append_assoc] at htext
  obtain hbound | ⟨d, hrun, hd⟩ := h c hc htext
  · exact .inl (bind_exhausted after hbound)
  rw [Run.bind_apply, hrun]
  obtain hbound | ⟨d', hrun', hd'⟩ := hafter d (hd.fresh hc) hd.rest
  · exact .inl hbound
  · exact .inr ⟨d', hrun', hd.trans hd'⟩

theorem Rule.takes_pure (a : α) (rest : List Located) : (pure a : Rule α).Takes a [] rest := by
  intro c hc htext
  exact .inr ⟨c, rfl, hc.ended.refl, hc.clear, htext⟩

theorem Rule.Offers.bind {rules : ι → Rule α} {afters : ι → α → Rule β} {us vs : List Lexeme}
    {follow follow₁ : Token → Prop} (h : Offers us follow₁ rules)
    (hafter : ∀ a, Offers vs follow fun i => afters i a)
    (hlead : ∀ rest, follow (next rest) → follow₁ (next (placed vs ++ rest))) :
    Offers (us ++ vs) follow fun i => rules i >>= afters i := by
  intro rest hrest
  obtain ⟨a, ha⟩ := h _ (hlead rest hrest)
  obtain ⟨b, hb⟩ := hafter a rest hrest
  refine ⟨b, ?_⟩
  intro i
  rw [placed_append]
  exact (ha i).bind (hb i)

theorem Rule.Rejects.bind {rule : Rule α} {e : SyntaxError} {moved : Nat} {ts : List Located}
    (h : rule.Rejects e moved ts) (after : α → Rule β) :
    (rule >>= after).Rejects e moved ts := by
  intro c rest hc htext
  obtain hbound | ⟨d, hrun, hd⟩ := h c rest hc htext
  · exact .inl (bind_exhausted after hbound)
  · rw [Run.bind_apply, hrun]
    exact .inr ⟨d, rfl, hd⟩

theorem Rule.Rejects.after {rule : Rule α} {after : α → Rule β} {a : α} {e : SyntaxError}
    {moved : Nat} {ts us : List Located} (h : (after a).Rejects e moved us)
    (htakes : ∀ rest, rule.Takes a ts (us ++ ⟨e.found, e.position⟩ :: rest)) :
    (rule >>= after).Rejects e (ts.length + moved) (ts ++ us) := by
  intro c rest hc htext
  rw [List.append_assoc] at htext
  obtain hbound | ⟨d, hrun, hd⟩ := htakes rest c hc htext
  · exact .inl (bind_exhausted after hbound)
  have hindex := hd.index hc htext
  rw [Run.bind_apply, hrun]
  obtain hbound | ⟨d', hrun', hreach, hclear, hindex'⟩ := h d rest (hd.fresh hc) hd.rest
  · exact .inl hbound
  · exact .inr ⟨d', hrun', hd.reach.trans hreach, hclear, by omega⟩

theorem Rule.GivesUp.after {rule : Rule α} {after : α → Rule β} {a : α} {e : SyntaxError}
    {moved : Nat} {ts us : List Located} (h : (after a).GivesUp e moved us)
    (htakes : ∀ rest, rule.Takes a ts (us ++ ⟨e.found, e.position⟩ :: rest)) :
    (rule >>= after).GivesUp e (ts.length + moved) (ts ++ us) := by
  intro c rest hc htext
  rw [List.append_assoc] at htext
  obtain hbound | ⟨d, hrun, hd⟩ := htakes rest c hc htext
  · exact .inl (bind_exhausted after hbound)
  have hindex := hd.index hc htext
  rw [Run.bind_apply, hrun]
  obtain hbound | ⟨b, d', hrun', hreach, hrecorded, hopens, hindex'⟩ := h d rest (hd.fresh hc) hd.rest
  · exact .inl hbound
  · exact .inr ⟨b, d', hrun', hd.reach.trans hreach, hrecorded, hopens, by omega⟩

/-- A text of the first rule that is followed by something of the second. -/
theorem Cursor.Fresh.next_append {d : Cursor} {us rest : List Located} (hd : d.Fresh)
    (hrest : d.rest = us ++ rest) (hsome : us ≠ []) (rest' : List Located) :
    next (us ++ rest') = d.peek := by
  obtain ⟨t, us, rfl⟩ := List.exists_cons_of_ne_nil hsome
  rw [Cursor.peek, hd.current_eq hrest]
  rfl

/-- After a text of the first rule, what is foreseen of the second is foreseen of both. -/
theorem Outlook.prepend {mayGiveUp : Nat → Prop} {follow : Token → Prop} (follow₁ : Token → Prop)
    {rules : ι → Rule α} {afters : ι → α → Rule β} {c d : Cursor} {a : α} {ts : List Located}
    {vs : List Lexeme} {reply : Outcome SyntaxError β × Cursor}
    (h : Outlook mayGiveUp follow (fun i => afters i a) d reply) (hc : c.Fresh)
    (htext : c.rest = ts ++ d.rest) (hleaves : c.Leaves d d.rest)
    (htakes : ∀ rest, next rest = d.peek ∨ follow₁ (next rest) → ∀ i, (rules i).Takes a ts rest)
    (hoffers : Offers vs follow fun i => afters i a)
    (hlead : ∀ rest, follow (next rest) → follow₁ (next (placed vs ++ rest)))
    (hfollow : ∀ token, follow token → follow₁ token) :
    Outlook mayGiveUp follow (fun i => rules i >>= afters i) c reply := by
  have hd := hleaves.fresh hc
  have hindex := hleaves.index hc htext
  -- the first rule reads its text also if the second fails after `us` at the same token
  have hfails : ∀ {e : SyntaxError} {us rest' : List Located},
      d.rest = us ++ ⟨e.found, e.position⟩ :: rest' →
      ∀ rest i, (rules i).Takes a ts (us ++ ⟨e.found, e.position⟩ :: rest) := by
    intro e us rest' hrest rest
    rw [List.append_cons] at hrest ⊢
    exact htakes _ (.inl (hd.next_append hrest (by simp) rest))
  -- a completion of what the second rule has read completes the whole
  have hcompletes : ∀ {us rest' : List Located}, d.rest = us ++ rest' → us ≠ [] →
      Completes follow (fun i => afters i a) us →
      Completes follow (fun i => rules i >>= afters i) (ts ++ us) := by
    rintro us rest' hrest hsome ⟨ws, hws⟩
    refine ⟨ws, ?_⟩
    intro rest hnext
    obtain ⟨b, hb⟩ := hws rest hnext
    refine ⟨b, ?_⟩
    intro i
    rw [List.append_assoc]
    refine (htakes _ (.inl ?_) i).bind (hb i)
    rw [List.append_assoc]
    exact hd.next_append hrest hsome _
  cases h with
  | @value b d' us text leaves takes =>
    refine .value (ts ++ us) (by rw [htext, text, List.append_assoc]) (hleaves.trans leaves) ?_
    intro rest hnext i
    refine (htakes _ ?_ i).bind (takes rest hnext i)
    by_cases hsome : us = []
    · -- the second rule has read nothing
      subst hsome
      have hpeek : d'.peek = d.peek := by
        rw [← (leaves.fresh hd).ended.next_rest, ← hd.ended.next_rest, text]
        rfl
      rw [hpeek] at hnext
      exact hnext.imp_right (hfollow _)
    · exact .inl (hd.next_append text hsome rest)
  | @error e d' moved us rest' text reach clear index furthest still rejects viable =>
    refine .error (ts.length + moved) (ts ++ us) rest' (by rw [htext, text, List.append_assoc])
      (hleaves.reach.trans reach) clear (by omega) ?_ ?_ ?_ ?_
    · rw [List.length_append]
      omega
    · intro hstill
      have hts : ts = [] := List.eq_nil_of_length_eq_zero (by omega)
      rw [hts, still (by omega)]
      rfl
    · intro i
      exact (rejects i).after fun rest => hfails text rest i
    · intro hsome
      by_cases hus : us = []
      · -- the second rule fails at once: anything it reads completes the text
        subst hus
        refine ⟨vs, ?_⟩
        intro rest hnext
        obtain ⟨b, hb⟩ := hoffers rest hnext
        refine ⟨b, ?_⟩
        intro i
        rw [List.append_nil]
        exact (htakes _ (.inr (hlead rest hnext)) i).bind (hb i)
      · exact hcompletes text hus (viable hus)
  | @gaveUp b e d' moved us rest' may text reach recorded opens index furthest givesUp viable =>
    have hus : us ≠ [] := by
      rintro rfl
      exact absurd furthest (Nat.not_lt_zero _)
    refine .gaveUp (ts.length + moved) (ts ++ us) rest' may
      (by rw [htext, text, List.append_assoc]) (hleaves.reach.trans reach) recorded opens (by omega)
      ?_ ?_ (hcompletes text hus viable)
    · rw [List.length_append]
      omega
    · intro i
      exact (givesUp i).after fun rest => hfails text rest i
  | exhausted => exact .exhausted

/-- A text that the first rule completes is completed by anything that the second reads. -/
theorem Rule.Completes.bind {follow follow₁ : Token → Prop} {rules : ι → Rule α}
    {afters : ι → α → Rule β} {ts : List Located} {vs : List Lexeme}
    (h : Completes follow₁ rules ts) (hoffers : ∀ a, Offers vs follow fun i => afters i a)
    (hlead : ∀ rest, follow (next rest) → follow₁ (next (placed vs ++ rest))) :
    Completes follow (fun i => rules i >>= afters i) ts := by
  obtain ⟨us, hus⟩ := h
  refine ⟨us ++ vs, ?_⟩
  intro rest hnext
  obtain ⟨a, ha⟩ := hus _ (hlead rest hnext)
  obtain ⟨b, hb⟩ := hoffers a rest hnext
  refine ⟨b, ?_⟩
  intro i
  rw [placed_append, ← List.append_assoc]
  exact (ha i).bind (hb i)

/-- One rule after another. If the first may give up a statement, the second settles it. -/
theorem Outlook.bind {mayGiveUp₁ mayGiveUp : Nat → Prop} {follow follow₁ : Token → Prop}
    {rule : Rule α} {rules : ι → Rule α} {after : α → Rule β} {afters : ι → α → Rule β}
    {c : Cursor} {vs : List Lexeme} (h : Outlook mayGiveUp₁ follow₁ rules c (rule c)) (hc : c.Fresh)
    (hafter : ∀ a d, c.Reaches d → d.Fresh →
      Outlook mayGiveUp follow (fun i => afters i a) d (after a d))
    (hoffers : ∀ a, Offers vs follow fun i => afters i a)
    (hlead : ∀ rest, follow (next rest) → follow₁ (next (placed vs ++ rest)))
    (hfollow : ∀ token, follow token → follow₁ token)
    (hsettles : ∀ index, mayGiveUp₁ index → c.index < index ∧ ∀ a,
      Grammar.Settles (after a) ∧ ∀ i, Grammar.Settles (afters i a)) :
    Outlook mayGiveUp follow (fun i => rules i >>= afters i) c ((rule >>= after) c) := by
  rw [Run.bind_apply]
  generalize rule c = reply at h
  cases h with
  | @value a d ts text leaves takes =>
    exact (hafter a d leaves.reach (leaves.fresh hc)).prepend follow₁ hc text leaves takes
      (hoffers a) hlead hfollow
  | @error e d moved ts rest text reach clear index furthest still rejects viable =>
    exact .error moved ts rest text reach clear index furthest still (fun i => (rejects i).bind _)
      fun hsome => (viable hsome).bind hoffers hlead
  | @gaveUp a e d moved ts rest may text reach recorded opens index furthest givesUp viable =>
    obtain ⟨hmoved, hboth⟩ := hsettles d.index may
    show Outlook _ _ _ _ (after a d)
    rw [(hboth a).1 d e recorded opens]
    refine .error moved ts rest text (reach.trans ⟨rfl, Nat.le_refl _, ?_⟩) rfl index
      (Nat.le_of_lt furthest) (by omega) ?_ fun _ => viable.bind hoffers hlead
    · rw [reach.tokens]
      exact reach.inside
    · -- the other rules give up the same statement, and what comes after them settles it
      intro i c' rest' hc' htext'
      obtain hbound | ⟨a', d', hrun, hreach, hrecorded, hopens, hindex⟩ :=
        givesUp i c' rest' hc' htext'
      · exact .inl (bind_exhausted _ hbound)
      right
      rw [Run.bind_apply, hrun]
      refine ⟨_, (hboth a').2 i d' e hrecorded hopens, ?_, rfl, hindex⟩
      exact ⟨hreach.tokens, hreach.index_le, hreach.inside⟩
  | exhausted => exact .exhausted

theorem Foresees.bind {follow follow₁ : Token → Prop} {rule : Rule α} {rules : ι → Rule α}
    {after : α → Rule β} {afters : ι → α → Rule β} {vs : List Lexeme}
    (h : Foresees follow₁ rule rules)
    (hafter : ∀ a, Foreseen vs follow (after a) fun i => afters i a)
    (hlead : ∀ rest, follow (next rest) → follow₁ (next (placed vs ++ rest)))
    (hfollow : ∀ token, follow token → follow₁ token) :
    Foresees follow (rule >>= after) fun i => rules i >>= afters i := by
  intro c hc hlegible
  refine (h c hc hlegible).bind hc ?_ (fun a => (hafter a).offers) hlead hfollow
    fun _ hmay => hmay.elim
  intro a d hreach hd
  exact (hafter a).foresees d hd (hreach.legible hlegible)

theorem Foreseen.bind {follow follow₁ : Token → Prop} {rule : Rule α} {rules : ι → Rule α}
    {after : α → Rule β} {afters : ι → α → Rule β} {us vs : List Lexeme}
    (h : Foreseen us follow₁ rule rules)
    (hafter : ∀ a, Foreseen vs follow (after a) fun i => afters i a)
    (hlead : ∀ rest, follow (next rest) → follow₁ (next (placed vs ++ rest)))
    (hfollow : ∀ token, follow token → follow₁ token) :
    Foreseen (us ++ vs) follow (rule >>= after) fun i => rules i >>= afters i :=
  ⟨h.foresees.bind hafter hlead hfollow, h.offers.bind (fun a => (hafter a).offers) hlead⟩

/-- Whether the rule `rule'` does at the cursor what one of `rules` does, or is at its bound. -/
def Rule.ActsLike (rules : ι → Rule α) (rule' : Rule α) (c : Cursor) : Prop :=
  (rule' c).1 = .exhausted ∨ ∃ i, rule' c = rules i c

section actsLike

variable {rules : ι → Rule α} {rule' : Rule α} {ts : List Located}

theorem Rule.Takes.of_actsLike {a : α} {rest : List Located} (h : ∀ i, (rules i).Takes a ts rest)
    (hlike : ∀ c : Cursor, c.Fresh → c.rest = ts ++ rest → rule'.ActsLike rules c) :
    rule'.Takes a ts rest := by
  intro c hc htext
  obtain hbound | ⟨i, hi⟩ := hlike c hc htext
  · exact .inl hbound
  · rw [hi]
    exact h i c hc htext

theorem Rule.Rejects.of_actsLike {e : SyntaxError} {moved : Nat}
    (h : ∀ i, (rules i).Rejects e moved ts)
    (hlike : ∀ (c : Cursor) (rest : List Located), c.Fresh →
      c.rest = ts ++ ⟨e.found, e.position⟩ :: rest → rule'.ActsLike rules c) :
    rule'.Rejects e moved ts := by
  intro c rest hc htext
  obtain hbound | ⟨i, hi⟩ := hlike c rest hc htext
  · exact .inl hbound
  · rw [hi]
    exact h i c rest hc htext

theorem Rule.GivesUp.of_actsLike {e : SyntaxError} {moved : Nat}
    (h : ∀ i, (rules i).GivesUp e moved ts)
    (hlike : ∀ (c : Cursor) (rest : List Located), c.Fresh →
      c.rest = ts ++ ⟨e.found, e.position⟩ :: rest → rule'.ActsLike rules c) :
    rule'.GivesUp e moved ts := by
  intro c rest hc htext
  obtain hbound | ⟨i, hi⟩ := hlike c rest hc htext
  · exact .inl hbound
  · rw [hi]
    exact h i c rest hc htext

end actsLike

/-- What is foreseen of some rules is foreseen of others that act like them at the same token. If
nothing has been read, the others must also act like them at the tokens that may follow. -/
theorem Outlook.congr {mayGiveUp : Nat → Prop} {follow : Token → Prop} {rules : ι → Rule α}
    {rules' : κ → Rule α} {c : Cursor} {reply : Outcome SyntaxError α × Cursor}
    (h : Outlook mayGiveUp follow rules c reply) (hc : c.Fresh)
    (hlike : ∀ k (c' : Cursor), c'.Fresh → c'.current = c.current → (rules' k).ActsLike rules c')
    (hstill : (∀ a d, reply = (.value a, d) → c.index < d.index) ∨
      ∀ k (c' : Cursor), c'.Fresh → c'.peek = c.peek ∨ follow c'.peek →
        (rules' k).ActsLike rules c') :
    Outlook mayGiveUp follow rules' c reply := by
  -- cursors before the same first token
  have hsame : ∀ {ts rest : List Located}, c.rest = ts ++ rest → ts ≠ [] →
      ∀ k (c' : Cursor) rest', c'.Fresh → c'.rest = ts ++ rest' →
        (rules' k).ActsLike rules c' := by
    intro ts rest htext hsome k c' rest' hc' htext'
    obtain ⟨t, ts, rfl⟩ := List.exists_cons_of_ne_nil hsome
    exact hlike k c' hc' ((hc'.current_eq htext').trans (hc.current_eq htext).symm)
  have hfails : ∀ {t : Located} {ts rest : List Located}, c.rest = ts ++ t :: rest →
      ∀ k (c' : Cursor) rest', c'.Fresh → c'.rest = ts ++ t :: rest' →
        (rules' k).ActsLike rules c' := by
    intro t ts rest htext k c' rest' hc' htext'
    rw [List.append_cons] at htext htext'
    exact hsame htext (by simp) k c' rest' hc' htext'
  have hcompletes : ∀ {ts rest : List Located}, c.rest = ts ++ rest → ts ≠ [] →
      Completes follow rules ts → Completes follow rules' ts := by
    rintro ts rest htext hsome ⟨us, hus⟩
    refine ⟨us, ?_⟩
    intro rest' hnext
    obtain ⟨a, ha⟩ := hus rest' hnext
    refine ⟨a, ?_⟩
    intro k
    refine .of_actsLike ha fun c' hc' htext' => ?_
    rw [List.append_assoc] at htext'
    exact hsame htext hsome k c' _ hc' htext'
  cases h with
  | @value a d ts text leaves takes =>
    refine .value ts text leaves ?_
    intro rest hnext k
    refine .of_actsLike (takes rest hnext) fun c' hc' htext' => ?_
    by_cases hsome : ts = []
    · subst hsome
      have hindex := leaves.index hc text
      obtain hmoved | hstill := hstill
      · have hlt := hmoved a d rfl
        simp only [List.length_nil] at hindex
        omega
      · refine hstill k c' hc' ?_
        have hpeek : c.peek = d.peek := by
          rw [← hc.ended.next_rest, ← (leaves.fresh hc).ended.next_rest, text]
          rfl
        rw [hpeek, ← hc'.ended.next_rest, htext']
        exact hnext
    · exact hsame text hsome k c' rest hc' htext'
  | @error e d moved ts rest text reach clear index furthest still rejects viable =>
    refine .error moved ts rest text reach clear index furthest still ?_ fun hsome =>
      hcompletes text hsome (viable hsome)
    intro k
    exact .of_actsLike rejects fun c' rest' hc' htext' => hfails text k c' rest' hc' htext'
  | @gaveUp a e d moved ts rest may text reach recorded opens index furthest givesUp viable =>
    have hsome : ts ≠ [] := by
      rintro rfl
      exact absurd furthest (Nat.not_lt_zero _)
    refine .gaveUp moved ts rest may text reach recorded opens index furthest ?_
      (hcompletes text hsome viable)
    intro k
    exact .of_actsLike givesUp fun c' rest' hc' htext' => hfails text k c' rest' hc' htext'
  | exhausted => exact .exhausted

/-- Rules that are at their bound may be added to those of which something is foreseen. -/
theorem Outlook.variants {mayGiveUp : Nat → Prop} {follow : Token → Prop} {rules : ι → Rule α}
    {rules' : κ → Rule α} {c : Cursor} {reply : Outcome SyntaxError α × Cursor}
    (h : Outlook mayGiveUp follow rules c reply) (hc : c.Fresh)
    (hcover : ∀ k, rules' k = Run.exhausted ∨ ∃ i, rules' k = rules i) :
    Outlook mayGiveUp follow rules' c reply := by
  have hlike : ∀ k (c' : Cursor), (rules' k).ActsLike rules c' := by
    intro k c'
    rcases hcover k with hbound | ⟨i, hi⟩
    · left
      rw [hbound]
      rfl
    · right
      exact ⟨i, by rw [hi]⟩
  exact h.congr hc (fun k c' _ _ => hlike k c') (.inr fun k c' _ _ => hlike k c')

theorem Foresees.variants {follow : Token → Prop} {rule : Rule α} {rules : ι → Rule α}
    {rules' : κ → Rule α} (h : Foresees follow rule rules)
    (hcover : ∀ k, rules' k = Run.exhausted ∨ ∃ i, rules' k = rules i) :
    Foresees follow rule rules' :=
  fun c hc hlegible => (h c hc hlegible).variants hc hcover

theorem ForeseesOrGivesUp.variants {follow : Token → Prop} {rule : Rule α} {rules : ι → Rule α}
    {rules' : κ → Rule α} (h : ForeseesOrGivesUp follow rule rules)
    (hcover : ∀ k, rules' k = Run.exhausted ∨ ∃ i, rules' k = rules i) :
    ForeseesOrGivesUp follow rule rules' :=
  fun c hc hlegible => (h c hc hlegible).variants hc hcover

theorem Rule.Offers.variants {us : List Lexeme} {follow : Token → Prop} {rules : ι → Rule α}
    {rules' : κ → Rule α} (h : Offers us follow rules)
    (hcover : ∀ k, rules' k = Run.exhausted ∨ ∃ i, rules' k = rules i) :
    Offers us follow rules' := by
  intro rest hnext
  obtain ⟨a, ha⟩ := h rest hnext
  refine ⟨a, ?_⟩
  intro k
  rcases hcover k with hbound | ⟨i, hi⟩
  · rw [hbound]
    exact fun _ _ _ => .inl rfl
  · rw [hi]
    exact ha i

theorem Foreseen.variants {us : List Lexeme} {follow : Token → Prop} {rule : Rule α}
    {rules : ι → Rule α} {rules' : κ → Rule α} (h : Foreseen us follow rule rules)
    (hcover : ∀ k, rules' k = Run.exhausted ∨ ∃ i, rules' k = rules i) :
    Foreseen us follow rule rules' :=
  ⟨h.foresees.variants hcover, h.offers.variants hcover⟩

/-- A rule for statements, and after it one that settles what was given up. -/
theorem ForeseesOrGivesUp.bind_settled {follow follow₁ : Token → Prop} {rule : Rule α}
    {rules : ι → Rule α} {after : α → Rule β} {afters : ι → α → Rule β} {vs : List Lexeme}
    (h : ForeseesOrGivesUp follow₁ rule rules)
    (hafter : ∀ a, Foreseen vs follow (after a) fun i => afters i a)
    (hlead : ∀ rest, follow (next rest) → follow₁ (next (placed vs ++ rest)))
    (hfollow : ∀ token, follow token → follow₁ token)
    (hsettles : ∀ a, Grammar.Settles (after a)) (hsettles' : ∀ i a, Grammar.Settles (afters i a)) :
    Foresees follow (rule >>= after) fun i => rules i >>= afters i := by
  intro c hc hlegible
  refine (h c hc hlegible).bind hc ?_ (fun a => (hafter a).offers) hlead hfollow ?_
  · intro a d hreach hd
    exact (hafter a).foresees d hd (hreach.legible hlegible)
  · intro index hmoved
    exact ⟨hmoved, fun a => ⟨hsettles a, fun i => hsettles' i a⟩⟩

theorem Outlook.mono {mayGiveUp mayGiveUp' : Nat → Prop} {follow : Token → Prop}
    {rules : ι → Rule α} {c : Cursor} {reply : Outcome SyntaxError α × Cursor}
    (h : Outlook mayGiveUp follow rules c reply) (hmay : ∀ index, mayGiveUp index → mayGiveUp' index) :
    Outlook mayGiveUp' follow rules c reply := by
  cases h with
  | value ts text leaves takes => exact .value ts text leaves takes
  | error moved ts rest text reach clear index furthest still rejects viable =>
    exact .error moved ts rest text reach clear index furthest still rejects viable
  | gaveUp moved ts rest may text reach recorded opens index furthest givesUp viable =>
    exact .gaveUp moved ts rest (hmay _ may) text reach recorded opens index furthest givesUp viable
  | exhausted => exact .exhausted

/-- A rule, and after it one that may give up a statement. -/
theorem ForeseesOrGivesUp.bind {follow follow₁ : Token → Prop} {rule : Rule α}
    {rules : ι → Rule α} {after : α → Rule β} {afters : ι → α → Rule β} {vs : List Lexeme}
    (h : Foresees follow₁ rule rules)
    (hafter : ∀ a, ForeseesOrGivesUp follow (after a) fun i => afters i a)
    (hoffers : ∀ a, Offers vs follow fun i => afters i a)
    (hlead : ∀ rest, follow (next rest) → follow₁ (next (placed vs ++ rest)))
    (hfollow : ∀ token, follow token → follow₁ token) :
    ForeseesOrGivesUp follow (rule >>= after) fun i => rules i >>= afters i := by
  intro c hc hlegible
  refine (h c hc hlegible).bind hc ?_ hoffers hlead hfollow fun _ hmay => hmay.elim
  intro a d hreach hd
  exact (hafter a d hd (hreach.legible hlegible)).mono fun index hmoved =>
    Nat.lt_of_le_of_lt hreach.index_le hmoved

theorem foreseen_pure {follow : Token → Prop} (a : α) :
    Foreseen [] follow (pure a) fun _ : ι => (pure a : Rule α) := by
  refine ⟨?_, ?_⟩
  · intro c hc _
    exact .value [] rfl ⟨hc.ended.refl, hc.clear, rfl⟩ fun rest _ _ => takes_pure a rest
  · intro rest _
    exact ⟨a, fun _ => takes_pure a rest⟩

theorem Rule.Takes.map {rule : Rule α} {a : α} {ts rest : List Located} (f : α → β)
    (h : rule.Takes a ts rest) : (rule >>= fun a => pure (f a)).Takes (f a) ts rest := by
  have hboth : (rule >>= fun a => pure (f a)).Takes (f a) (ts ++ []) rest :=
    Rule.Takes.bind h (takes_pure (f a) rest)
  rwa [List.append_nil] at hboth

theorem Rule.Offers.map {follow : Token → Prop} {rules : ι → Rule α} {us : List Lexeme} (f : α → β)
    (h : Offers us follow rules) : Offers us follow fun i => rules i >>= fun a => pure (f a) := by
  intro rest hnext
  obtain ⟨a, ha⟩ := h rest hnext
  exact ⟨f a, fun i => (ha i).map f⟩

theorem Foresees.map {follow : Token → Prop} {rule : Rule α} {rules : ι → Rule α} (f : α → β)
    (h : Foresees follow rule rules) :
    Foresees follow (rule >>= fun a => pure (f a)) fun i => rules i >>= fun a => pure (f a) :=
  h.bind (fun a => foreseen_pure (f a)) (fun _ hnext => hnext) fun _ htoken => htoken

theorem Foreseen.map {follow : Token → Prop} {rule : Rule α} {rules : ι → Rule α}
    {us : List Lexeme} (f : α → β) (h : Foreseen us follow rule rules) :
    Foreseen us follow (rule >>= fun a => pure (f a)) fun i => rules i >>= fun a => pure (f a) :=
  ⟨h.foresees.map f, h.offers.map f⟩

theorem ForeseesOrGivesUp.map {follow : Token → Prop} {rule : Rule α} {rules : ι → Rule α}
    (f : α → β) (h : ForeseesOrGivesUp follow rule rules) :
    ForeseesOrGivesUp follow (rule >>= fun a => pure (f a))
      fun i => rules i >>= fun a => pure (f a) := by
  intro c hc hlegible
  have houtlook := h c hc hlegible
  have hcompletes : ∀ {ts : List Located}, Completes follow rules ts →
      Completes follow (fun i => rules i >>= fun a => pure (f a)) ts := fun hts =>
    hts.bind (fun a => (foreseen_pure (f a)).offers) fun _ hnext => hnext
  rw [Run.bind_apply]
  generalize rule c = reply at houtlook
  cases houtlook with
  | value ts text leaves takes =>
    exact .value ts text leaves fun rest hnext i => (takes rest hnext i).map f
  | error moved ts rest text reach clear index furthest still rejects viable =>
    exact .error moved ts rest text reach clear index furthest still (fun i => (rejects i).bind _)
      fun hsome => hcompletes (viable hsome)
  | gaveUp moved ts rest may text reach recorded opens index furthest givesUp viable =>
    refine .gaveUp moved ts rest may text reach recorded opens index furthest ?_
      (hcompletes viable)
    intro i c' rest' hc' htext'
    obtain hbound | ⟨a', d', hrun, hd'⟩ := givesUp i c' rest' hc' htext'
    · exact .inl (bind_exhausted _ hbound)
    · rw [Run.bind_apply, hrun]
      exact .inr ⟨f a', d', rfl, hd'⟩
  | exhausted => exact .exhausted

/-! ### Single tokens -/

theorem Cursor.Fresh.advance {c : Cursor} (hc : c.Fresh) (hne : c.peek ≠ .eof) :
    c.rest = [c.current] ++ c.advance.rest ∧ c.Leaves c.advance c.advance.rest := by
  refine ⟨hc.ended.rest_eq_cons_advance hne, hc.ended.reaches_advance, ?_, rfl⟩
  rw [hc.ended.advance_eq hne]
  exact hc.clear

/-- From the given token on, the rule ends as foreseen, and with a value only after it has moved. -/
def ForeseesAt (token : Token) (follow : Token → Prop) (rule : Rule α) (rules : ι → Rule α) :
    Prop :=
  ∀ c : Cursor, c.Fresh → c.Legible → c.peek = token →
    Outlook (fun _ => False) follow rules c (rule c) ∧
      ∀ a d, rule c = (.value a, d) → c.index < d.index

/-- A rule that reads a token that fits, and fails at any other token. -/
structure Rule.Requires (fits : Token → Prop) (rule : Rule α) : Prop where
  /-- A token that fits is read, and decides the value. -/
  present : ∀ t : Located, fits t.token →
    ∃ a, ∀ c : Cursor, c.current = t → rule c = (.value a, c.advance)
  /-- Another token is named in the error. -/
  absent : ∀ t : Located, ¬ fits t.token → ∃ e : SyntaxError, t = ⟨e.found, e.position⟩ ∧
    ∀ c : Cursor, c.setback = none → c.current = t → rule c = (.error e, c)
  /-- The end of input does not fit. -/
  not_eof : ¬ fits .eof

theorem Rule.Requires.ne_eof {fits : Token → Prop} {rule : Rule α} (h : rule.Requires fits)
    {token : Token} (hfits : fits token) : token ≠ .eof := by
  rintro rfl
  exact h.not_eof hfits

theorem Rule.Requires.takes {fits : Token → Prop} {rule : Rule α} (h : rule.Requires fits)
    {t : Located} (hfits : fits t.token) {a : α}
    (ha : ∀ c : Cursor, c.current = t → rule c = (.value a, c.advance)) (rest : List Located) :
    rule.Takes a [t] rest := by
  intro c hc htext
  have hcurrent : c.current = t := hc.current_eq htext
  have hne : c.peek ≠ .eof := by
    rw [Cursor.peek, hcurrent]
    exact h.ne_eof hfits
  obtain ⟨hrest, hleaves⟩ := hc.advance hne
  rw [htext, hcurrent] at hrest
  right
  exact ⟨c.advance, ha c hcurrent, hleaves.reach, hleaves.clear,
    (List.append_cancel_left hrest).symm⟩

theorem Rule.Requires.foresees {fits : Token → Prop} {rule : Rule α} (h : rule.Requires fits)
    (follow : Token → Prop) : Foresees follow rule fun _ : ι => rule := by
  intro c hc _
  by_cases hfits : fits c.peek
  · obtain ⟨a, ha⟩ := h.present c.current hfits
    obtain ⟨hrest, hleaves⟩ := hc.advance (h.ne_eof hfits)
    rw [ha c rfl]
    exact .value _ hrest hleaves fun rest _ _ => h.takes hfits ha rest
  · obtain ⟨e, hplace, he⟩ := h.absent c.current hfits
    rw [he c hc.clear rfl]
    refine .error 0 [] (c.tokens.toList.drop (c.index + 1)) ?_ hc.ended.refl hc.clear rfl
      (Nat.le_refl 0) (fun _ => rfl) ?_ (fun hsome => absurd rfl hsome)
    · rw [← hplace]
      exact hc.ended.rest_eq
    · intro _ c' rest' hc' htext'
      have hcurrent : c'.current = c.current := by
        rw [hc'.current_eq htext', ← hplace]
      exact .inr ⟨c', he c' hc'.clear hcurrent, hc'.ended.refl, hc'.clear, rfl⟩

theorem Rule.Requires.foreseen {fits : Token → Prop} {rule : Rule α} (h : rule.Requires fits)
    (u : Lexeme) (hfits : fits u.val) : Foreseen [u] (fun _ => True) rule fun _ : ι => rule := by
  refine ⟨h.foresees _, ?_⟩
  intro rest _
  obtain ⟨a, ha⟩ := h.present ⟨u.val, .start⟩ hfits
  exact ⟨a, fun _ => h.takes hfits ha rest⟩

theorem Rule.Requires.bind {fits : Token → Prop} {follow : Token → Prop} {rule : Rule α}
    {after : α → Rule β} {afters : ι → α → Rule β} {vs : List Lexeme} (h : rule.Requires fits)
    (u : Lexeme) (hfits : fits u.val)
    (hafter : ∀ a, Foreseen vs follow (after a) fun i => afters i a) :
    Foreseen (u :: vs) follow (rule >>= after) fun i => rule >>= afters i :=
  (h.foreseen u hfits).bind hafter (fun _ _ => trivial) fun _ _ => trivial

/-- A rule that starts by requiring a token gives a value only after it has moved. -/
theorem Rule.Requires.foreseesAt {fits : Token → Prop} {follow : Token → Prop} {rule : Rule α}
    {after : α → Rule β} {afters : ι → α → Rule β} (h : rule.Requires fits) (vs : List Lexeme)
    (hafter : ∀ a, Foreseen vs follow (after a) fun i => afters i a) (token : Token) :
    ForeseesAt token follow (rule >>= after) fun i => rule >>= afters i := by
  have hboth : Foresees follow (rule >>= after) fun i => rule >>= afters i :=
    (h.foresees fun _ => True).bind hafter (fun _ _ => trivial) fun _ _ => trivial
  intro c hc hlegible _
  refine ⟨hboth c hc hlegible, ?_⟩
  intro b d hrun
  obtain ⟨a, d', hfirst, hsecond⟩ := Run.bind_eq_value_iff.mp hrun
  by_cases hfits : fits c.peek
  · obtain ⟨a', ha'⟩ := h.present c.current hfits
    rw [ha' c rfl] at hfirst
    cases hfirst
    obtain ⟨-, hleaves⟩ := hc.advance (h.ne_eof hfits)
    have houtlook := (hafter a).foresees c.advance (hleaves.fresh hc)
      (hleaves.reach.legible hlegible)
    rw [hsecond] at houtlook
    have hlt := hc.ended.index_lt_advance (h.ne_eof hfits)
    cases houtlook with
    | value ts text leaves takes => exact Nat.lt_of_lt_of_le hlt leaves.reach.index_le
    | gaveUp moved ts rest may => exact may.elim
  · obtain ⟨e, -, he⟩ := h.absent c.current hfits
    rw [he c hc.clear rfl] at hfirst
    cases hfirst

theorem requires_expect (token : Token) (expected : String) (hne : token ≠ .eof) :
    (expect token expected).Requires (· = token) where
  present t htoken := by
    refine ⟨t.position, ?_⟩
    rintro c rfl
    exact expect_of_peek htoken
  absent t htoken := by
    refine ⟨.unexpected expected t.token t.position, rfl, ?_⟩
    rintro c - rfl
    exact expect_of_peek_ne htoken
  not_eof := hne.symm

theorem requires_keyword (word : Keyword) :
    (expectKeyword word).Requires (· = .keyword word) :=
  requires_expect _ _ nofun

theorem requires_symbol (mark : Symbol) : (expectSymbol mark).Requires (· = .symbol mark) :=
  requires_expect _ _ nofun

theorem requires_unexpected (expected : String) :
    (unexpected expected : Rule α).Requires fun _ => False where
  present _ hnone := hnone.elim
  absent t _ := by
    refine ⟨.unexpected expected t.token t.position, rfl, ?_⟩
    rintro c - rfl
    rfl
  not_eof := id

theorem requires_expectIdentifier :
    expectIdentifier.Requires fun token => ∃ name, token = .identifier name where
  present t := by
    rintro ⟨name, hname⟩
    refine ⟨name, ?_⟩
    rintro c rfl
    simp only [expectIdentifier, Run.bind_apply, look, Cursor.peek, hname, Rule.advance]
    rfl
  absent t hother := by
    refine ⟨.unexpected "identifier" t.token t.position, rfl, ?_⟩
    rintro c - rfl
    cases htoken : c.current.token with
    | identifier name => exact absurd ⟨name, htoken⟩ hother
    | _ =>
      simp only [expectIdentifier, Run.bind_apply, look, Cursor.peek, htoken, Rule.unexpected,
        Cursor.unexpected, Cursor.position]
  not_eof := nofun

theorem sees_apply (token : Token) (yes no : Rule α) (c : Cursor) :
    (sees token >>= fun seen => if seen = true then yes else no) c =
      if c.peek = token then yes c else no c := by
  rw [Run.bind_apply]
  by_cases hpeek : c.peek = token
  · simp only [sees, look, decide_eq_true hpeek, if_true, if_pos hpeek]
  · simp only [sees, look, decide_eq_false hpeek, Bool.false_eq_true, if_false, if_neg hpeek]

theorem requires_blockEnd (construct : Keyword) :
    (Grammar.blockEnd construct).Requires (· = .keyword .end_) where
  present t htoken := by
    refine ⟨(), ?_⟩
    rintro c rfl
    exact (sees_apply _ _ _ c).trans (if_pos htoken)
  absent t htoken := by
    refine ⟨.unclosed construct t.token t.position, rfl, ?_⟩
    rintro c hclear rfl
    exact ((sees_apply _ _ _ c).trans (if_neg htoken)).trans (failOr_of_clear _ hclear)
  not_eof := nofun

theorem next_dropWhile_ne (ts : List Located) :
    next (ts.dropWhile Located.isNewline) ≠ .newline := by
  induction ts with
  | nil => exact nofun
  | cons t ts ih =>
    rw [List.dropWhile_cons]
    split
    · exact ih
    · next hother => simpa [Located.isNewline] using hother

theorem takes_skipNewlines {ts rest : List Located} (hts : ∀ t ∈ ts, t.isNewline = true)
    (hrest : next rest ≠ .newline) : skipNewlines.Takes ts.length ts rest := by
  intro c hc htext
  have hskip := Cursor.rest_skipNewlinesUpTo hc.ended c.rest_length_le_size
  have htwin : Twin c c := ⟨rfl, rfl, hc.clear, hc.clear⟩
  have hnone : rest.takeWhile Located.isNewline = [] ∧ rest.dropWhile Located.isNewline = rest := by
    cases rest with
    | nil => exact ⟨rfl, rfl⟩
    | cons t rest =>
      have hother : t.isNewline = false := decide_eq_false hrest
      simp [hother]
  rw [htext, List.takeWhile_append_of_pos hts, List.dropWhile_append_of_pos hts, hnone.1, hnone.2,
    List.append_nil] at hskip
  right
  refine ⟨c.skipNewlines.2, ?_, hc.ended.reaches_skipNewlines, htwin.skipNewlines.2.clear, hskip.1⟩
  rw [← hskip.2]
  rfl

/-- The separators before the next token are skipped and counted. -/
theorem Cursor.Fresh.skipNewlines {c : Cursor} (hc : c.Fresh) :
    c.rest = c.rest.takeWhile Located.isNewline ++ c.skipNewlines.2.rest ∧
      c.Leaves c.skipNewlines.2 c.skipNewlines.2.rest ∧
      c.skipNewlines.1 = (c.rest.takeWhile Located.isNewline).length := by
  have htwin : Twin c c := ⟨rfl, rfl, hc.clear, hc.clear⟩
  refine ⟨?_, ⟨hc.ended.reaches_skipNewlines, htwin.skipNewlines.2.clear, rfl⟩, ?_⟩
  · rw [hc.ended.rest_skipNewlines, List.takeWhile_append_dropWhile]
  · exact (Cursor.rest_skipNewlinesUpTo hc.ended c.rest_length_le_size).2

theorem Cursor.Fresh.index_lt_skipNewlines {c : Cursor} (hc : c.Fresh)
    (hsome : c.skipNewlines.1 ≠ 0) : c.index < c.skipNewlines.2.index := by
  obtain ⟨htext, hleaves, hcount⟩ := hc.skipNewlines
  have hindex := hleaves.index hc htext
  omega

theorem Cursor.Fresh.peek_skipNewlines_ne {c : Cursor} (hc : c.Fresh) :
    c.skipNewlines.2.peek ≠ .newline := by
  obtain ⟨-, hleaves, -⟩ := hc.skipNewlines
  rw [← (hleaves.fresh hc).ended.next_rest, hc.ended.rest_skipNewlines]
  exact next_dropWhile_ne _

theorem foreseen_skipNewlines :
    Foreseen [] (· ≠ .newline) skipNewlines fun _ : ι => skipNewlines := by
  refine ⟨?_, fun rest hother => ⟨0, fun _ => takes_skipNewlines nofun hother⟩⟩
  intro c hc _
  obtain ⟨htext, hleaves, hcount⟩ := hc.skipNewlines
  show Outlook _ _ _ c (.value c.skipNewlines.1, c.skipNewlines.2)
  refine .value _ htext hleaves ?_
  intro rest hnext _
  have hother : next rest ≠ .newline := by
    obtain hsame | hother := hnext
    · rw [hsame]
      exact hc.peek_skipNewlines_ne
    · exact hother
  rw [hcount]
  exact takes_skipNewlines (List.all_eq_true.mp List.all_takeWhile) hother

/-! ### Looking ahead -/

/-- Rules that read nothing, neither at this token nor at those that may follow. -/
theorem outlook_still {mayGiveUp : Nat → Prop} {follow : Token → Prop} {rules : ι → Rule α}
    {c : Cursor} {a : α} (hc : c.Fresh)
    (hstill : ∀ i (c' : Cursor), c'.peek = c.peek ∨ follow c'.peek →
      (rules i c').1 = .exhausted ∨ rules i c' = (.value a, c')) :
    Outlook mayGiveUp follow rules c (.value a, c) := by
  refine .value [] rfl ⟨hc.ended.refl, hc.clear, rfl⟩ ?_
  intro rest hnext i c' hc' htext
  have hpeek : c'.peek = c.peek ∨ follow c'.peek := by
    rw [← hc'.ended.next_rest, htext]
    exact hnext
  rcases hstill i c' hpeek with hbound | hrun
  · exact .inl hbound
  · exact .inr ⟨c', hrun, hc'.ended.refl, hc'.clear, htext⟩

theorem Foresees.at_of_commits {token : Token} {follow : Token → Prop} {rule : Rule α}
    {rules : ι → Rule α} (h : Foresees follow rule rules) (hcommits : rule.Commits (· = token)) :
    ForeseesAt token follow rule rules := by
  intro c hc hlegible hpeek
  refine ⟨h c hc hlegible, ?_⟩
  intro a d hrun
  have hmoved := hcommits c hc.ended hpeek
  rw [hrun] at hmoved
  exact hmoved.resolve_left nofun

/-- The rule reads the token and goes on. -/
theorem foreseesAt_advance (token : Token) {follow : Token → Prop} {after : Located → Rule β}
    {afters : ι → Located → Rule β} {vs : List Lexeme} (hne : token ≠ .eof)
    (hafter : ∀ t, Foreseen vs follow (after t) fun i => afters i t) :
    ForeseesAt token follow (advance >>= after) fun i => advance >>= afters i := by
  intro c hc hlegible hpeek
  obtain ⟨hrest, hleaves⟩ := hc.advance (hpeek ▸ hne)
  have hd := hleaves.fresh hc
  have houtlook := (hafter c.current).foresees c.advance hd (hleaves.reach.legible hlegible)
  refine ⟨?_, ?_⟩
  · show Outlook _ _ _ c (after c.current c.advance)
    refine houtlook.prepend (fun _ => True) hc hrest hleaves ?_ (hafter c.current).offers
      (fun _ _ => trivial) fun _ _ => trivial
    intro rest _ _ c' hc' htext'
    have hcurrent : c'.current = c.current := hc'.current_eq htext'
    have hne' : c'.peek ≠ .eof := by
      rw [Cursor.peek, hcurrent, ← Cursor.peek, hpeek]
      exact hne
    obtain ⟨hrest', hleaves'⟩ := hc'.advance hne'
    right
    refine ⟨c'.advance, by rw [← hcurrent]; rfl, hleaves'.reach, hleaves'.clear, ?_⟩
    rw [htext', hcurrent] at hrest'
    exact (List.append_cancel_left hrest').symm
  · intro b d hrun
    have hafter' : after c.current c.advance = (.value b, d) := hrun
    rw [hafter'] at houtlook
    have hlt := hc.ended.index_lt_advance (hpeek ▸ hne)
    cases houtlook with
    | value ts text leaves takes => exact Nat.lt_of_lt_of_le hlt leaves.reach.index_le
    | gaveUp moved ts rest may => exact may.elim

/-- A rule that takes one of two ways: at the token it reads on, otherwise it does something else.
-/
theorem foresees_sees {token : Token} {follow : Token → Prop} {yes no : Rule α}
    {yess nos : ι → Rule α} (hyes : ForeseesAt token follow yes yess)
    (hno : Foresees follow no nos) (hfollow : ¬ follow token) :
    Foresees follow (sees token >>= fun seen => if seen = true then yes else no)
      fun i => sees token >>= fun seen => if seen = true then yess i else nos i := by
  intro c hc hlegible
  rw [sees_apply]
  by_cases hpeek : c.peek = token
  · obtain ⟨houtlook, hmoved⟩ := hyes c hc hlegible hpeek
    rw [if_pos hpeek]
    refine houtlook.congr hc ?_ (.inl hmoved)
    intro i c' _ hcurrent
    have hpeek' : c'.peek = token := by rw [Cursor.peek, hcurrent]; exact hpeek
    exact .inr ⟨i, by rw [sees_apply, if_pos hpeek']⟩
  · have hlike : ∀ i (c' : Cursor), c'.peek ≠ token → Rule.ActsLike nos
        (sees token >>= fun seen => if seen = true then yess i else nos i) c' := by
      intro i c' hpeek'
      exact .inr ⟨i, by rw [sees_apply, if_neg hpeek']⟩
    rw [if_neg hpeek]
    refine (hno c hc hlegible).congr hc ?_ (.inr ?_)
    · intro i c' _ hcurrent
      refine hlike i c' ?_
      rw [Cursor.peek, hcurrent]
      exact hpeek
    · intro i c' _ hnext
      refine hlike i c' ?_
      obtain hsame | hfollows := hnext
      · rw [hsame]
        exact hpeek
      · rintro rfl
        exact hfollow hfollows

theorem Rule.Takes.unseen {token : Token} {yes no : Rule α} {a : α} {ts rest : List Located}
    (h : no.Takes a ts rest) (hother : next (ts ++ rest) ≠ token) :
    (sees token >>= fun seen => if seen = true then yes else no).Takes a ts rest := by
  intro c hc htext
  have hpeek : c.peek ≠ token := by
    rw [← hc.ended.next_rest, htext]
    exact hother
  rw [sees_apply, if_neg hpeek]
  exact h c hc htext

/-- The token that is looked for is there, and is read. -/
theorem Rule.Offers.seen {token : Token} {follow : Token → Prop} {afters : ι → Located → Rule α}
    {nos : ι → Rule α} {us : List Lexeme} (u : Lexeme) (hu : u.val = token)
    (h : ∀ t, Offers us follow fun i => afters i t) :
    Offers (u :: us) follow fun i => sees token >>= fun seen =>
      if seen = true then advance >>= afters i else nos i := by
  intro rest hnext
  obtain ⟨a, ha⟩ := h ⟨u.val, .start⟩ rest hnext
  refine ⟨a, ?_⟩
  intro i c hc htext
  have hcurrent : c.current = ⟨u.val, .start⟩ := hc.current_eq htext
  have hpeek : c.peek = u.val := by rw [Cursor.peek, hcurrent]
  have hne : c.peek ≠ .eof := by
    rw [hpeek]
    exact u.property.ne_eof
  obtain ⟨hrest, hleaves⟩ := hc.advance hne
  rw [htext, hcurrent] at hrest
  have hafter := ha i c.advance (hleaves.fresh hc) (List.cons.inj hrest).2.symm
  have hrun : (sees token >>= fun seen => if seen = true then advance >>= afters i else nos i) c =
      afters i ⟨u.val, .start⟩ c.advance := by
    rw [sees_apply, if_pos (hpeek.trans hu), ← hcurrent]
    rfl
  rcases hafter with hbound | ⟨d, hrun', hd⟩
  · exact .inl (by rw [← hbound]; exact congrArg Prod.fst hrun)
  · exact .inr ⟨d, hrun.trans hrun', hleaves.trans hd⟩

theorem Rule.Offers.unseen {token : Token} {follow : Token → Prop} {yess nos : ι → Rule α}
    {us : List Lexeme} (h : Offers us follow nos)
    (hother : ∀ rest, follow (next rest) → next (placed us ++ rest) ≠ token) :
    Offers us follow fun i => sees token >>= fun seen =>
      if seen = true then yess i else nos i := by
  intro rest hnext
  obtain ⟨a, ha⟩ := h rest hnext
  exact ⟨a, fun i => (ha i).unseen (hother rest hnext)⟩

/-- Rules that act alike at the token are foreseen alike from it on. -/
theorem ForeseesAt.congr {token : Token} {follow : Token → Prop} {rule rule' : Rule α}
    {rules rules' : ι → Rule α} (h : ForeseesAt token follow rule rules)
    (hrun : ∀ c : Cursor, c.peek = token → rule' c = rule c)
    (hruns : ∀ i (c : Cursor), c.peek = token → rules' i c = rules i c) :
    ForeseesAt token follow rule' rules' := by
  intro c hc hlegible hpeek
  obtain ⟨houtlook, hmoved⟩ := h c hc hlegible hpeek
  rw [hrun c hpeek]
  refine ⟨houtlook.congr hc ?_ (.inl hmoved), hmoved⟩
  intro i c' _ hcurrent
  refine .inr ⟨i, hruns i c' ?_⟩
  rw [Cursor.peek, hcurrent]
  exact hpeek

theorem ForeseesAt.map {token : Token} {follow : Token → Prop} {rule : Rule α}
    {rules : ι → Rule α} (f : α → β) (h : ForeseesAt token follow rule rules) :
    ForeseesAt token follow (rule >>= fun a => pure (f a))
      fun i => rules i >>= fun a => pure (f a) := by
  intro c hc hlegible hpeek
  obtain ⟨houtlook, hmoved⟩ := h c hc hlegible hpeek
  refine ⟨?_, ?_⟩
  · refine houtlook.bind hc ?_ (fun a => (foreseen_pure (f a)).offers) (fun _ hnext => hnext)
      (fun _ htoken => htoken) fun _ hmay => hmay.elim
    intro a d hreach hd
    exact (foreseen_pure (f a)).foresees d hd (hreach.legible hlegible)
  · intro b d hrun
    obtain ⟨a, d', hfirst, hpure⟩ := Run.bind_eq_value_iff.mp hrun
    cases hpure
    exact hmoved a _ hfirst

theorem ForeseesAt.variants {token : Token} {follow : Token → Prop} {rule : Rule α}
    {rules : ι → Rule α} {rules' : κ → Rule α} (h : ForeseesAt token follow rule rules)
    (hcover : ∀ k, rules' k = Run.exhausted ∨ ∃ i, rules' k = rules i) :
    ForeseesAt token follow rule rules' := by
  intro c hc hlegible hpeek
  obtain ⟨houtlook, hmoved⟩ := h c hc hlegible hpeek
  exact ⟨houtlook.variants hc hcover, hmoved⟩

/-- A rule after which something is read from every token on. -/
theorem Foresees.bind_at {follow follow₁ : Token → Prop} {rule : Rule α} {rules : ι → Rule α}
    {after : α → Rule β} {afters : ι → α → Rule β} {vs : List Lexeme}
    (h : Foresees follow₁ rule rules)
    (hafter : ∀ a token, ForeseesAt token follow (after a) fun i => afters i a)
    (hoffers : ∀ a, Offers vs follow fun i => afters i a)
    (hlead : ∀ rest, follow (next rest) → follow₁ (next (placed vs ++ rest)))
    (hfollow : ∀ token, follow token → follow₁ token) (token : Token) :
    ForeseesAt token follow (rule >>= after) fun i => rules i >>= afters i := by
  intro c hc hlegible _
  have houtlook := h c hc hlegible
  refine ⟨?_, ?_⟩
  · refine houtlook.bind hc ?_ hoffers hlead hfollow fun _ hmay => hmay.elim
    intro a d hreach hd
    exact (hafter a d.peek d hd (hreach.legible hlegible) rfl).1
  · intro b d hrun
    obtain ⟨a, d', hfirst, hsecond⟩ := Run.bind_eq_value_iff.mp hrun
    rw [hfirst] at houtlook
    cases houtlook with
    | value ts text leaves takes =>
      have hlt := (hafter a d'.peek d' (leaves.fresh hc) (leaves.reach.legible hlegible) rfl).2 b d
        hsecond
      exact Nat.lt_of_le_of_lt leaves.reach.index_le hlt
    | gaveUp moved ts rest may => exact may.elim

/-- A rule that is foreseen from every token on is foreseen. -/
theorem Foresees.of_at {follow : Token → Prop} {rule : Rule α} {rules : ι → Rule α}
    (h : ∀ token, ForeseesAt token follow rule rules) : Foresees follow rule rules :=
  fun c hc hlegible => (h c.peek c hc hlegible rfl).1

/-- A rule that fails at the token. -/
theorem ForeseesAt.of_unexpected {token : Token} {follow : Token → Prop} {rule : Rule α}
    {rules : ι → Rule α} (expected : String)
    (hrun : ∀ c : Cursor, c.peek = token → rule c = unexpected expected c)
    (hruns : ∀ i (c : Cursor), c.peek = token → rules i c = unexpected expected c) :
    ForeseesAt token follow rule rules := by
  have hfails : ForeseesAt token follow (unexpected expected : Rule α)
      fun _ : ι => unexpected expected := by
    intro c hc hlegible _
    refine ⟨(requires_unexpected expected).foresees follow c hc hlegible, ?_⟩
    intro a d hvalue
    cases hvalue
  exact hfails.congr hrun hruns

theorem expecting_of_value {rule : Rule α} {c d : Cursor} {a : α} (expected : String)
    (h : rule c = (.value a, d)) : expecting expected rule c = (.value a, d) := by
  simp only [expecting, h]

theorem expecting_of_error {rule : Rule α} {c d : Cursor} {e : SyntaxError} (expected : String)
    (h : rule c = (.error e, d)) : expecting expected rule c =
      (.error (if d.index = c.index then d.unexpected expected else e), d) := by
  simp only [expecting, h]

theorem expecting_of_exhausted {rule : Rule α} {c : Cursor} (expected : String)
    (h : (rule c).1 = .exhausted) : (expecting expected rule c).1 = .exhausted := by
  unfold expecting
  rcases hr : rule c with ⟨a | e | _, d⟩ <;> rw [hr] at h <;> cases h

theorem Rule.Takes.expecting {rule : Rule α} {a : α} {ts rest : List Located} (expected : String)
    (h : rule.Takes a ts rest) : (expecting expected rule).Takes a ts rest := by
  intro c hc htext
  obtain hbound | ⟨d, hrun, hd⟩ := h c hc htext
  · exact .inl (expecting_of_exhausted expected hbound)
  · exact .inr ⟨d, expecting_of_value expected hrun, hd⟩

theorem Rule.Offers.expecting {follow : Token → Prop} {rules : ι → Rule α} {us : List Lexeme}
    (expected : String) (h : Offers us follow rules) :
    Offers us follow fun i => Rule.expecting expected (rules i) := by
  intro rest hnext
  obtain ⟨a, ha⟩ := h rest hnext
  exact ⟨a, fun i => (ha i).expecting expected⟩

/-- A rule that fails where it started names the current token. -/
theorem expecting_of_still {rule : Rule α} {c d : Cursor} {e : SyntaxError} {rest : List Located}
    (expected : String) (hc : c.Fresh) (hrun : rule c = (.error e, d)) (hreach : c.Reaches d)
    (hindex : d.index = c.index) (htext : c.rest = ⟨e.found, e.position⟩ :: rest) :
    expecting expected rule c = (.error (.unexpected expected e.found e.position), d) := by
  have hcurrent : d.current = ⟨e.found, e.position⟩ := by
    rw [← hc.current_eq htext]
    exact Cursor.current_of_same hreach.tokens hindex
  rw [expecting_of_error expected hrun, if_pos hindex, Cursor.unexpected, Cursor.peek,
    Cursor.position, hcurrent]

theorem Rule.Rejects.expecting_still {rule : Rule α} {e : SyntaxError} (expected : String)
    (h : rule.Rejects e 0 []) :
    (expecting expected rule).Rejects (.unexpected expected e.found e.position) 0 [] := by
  intro c rest hc htext
  obtain hbound | ⟨d, hrun, hreach, hclear, hindex⟩ := h c rest hc htext
  · exact .inl (expecting_of_exhausted expected hbound)
  · exact .inr ⟨d, expecting_of_still expected hc hrun hreach hindex htext, hreach, hclear, hindex⟩

theorem Rule.Rejects.expecting_moved {rule : Rule α} {e : SyntaxError} {moved : Nat}
    {ts : List Located} (expected : String) (h : rule.Rejects e moved ts) (hmoved : moved ≠ 0) :
    (expecting expected rule).Rejects e moved ts := by
  intro c rest hc htext
  obtain hbound | ⟨d, hrun, hreach, hclear, hindex⟩ := h c rest hc htext
  · exact .inl (expecting_of_exhausted expected hbound)
  have hother : d.index ≠ c.index := by omega
  right
  refine ⟨d, ?_, hreach, hclear, hindex⟩
  rw [expecting_of_error expected hrun, if_neg hother]

/-- A rule whose error is worded anew if it fails on its first token. -/
theorem Foresees.expecting {follow : Token → Prop} {rule : Rule α} {rules : ι → Rule α}
    (expected : String) (h : Foresees follow rule rules) :
    Foresees follow (expecting expected rule) fun i => expecting expected (rules i) := by
  intro c hc hlegible
  have houtlook := h c hc hlegible
  rcases hr : rule c with ⟨a | e | _, d⟩ <;> rw [hr] at houtlook
  · rw [expecting_of_value expected hr]
    cases houtlook with
    | value ts text leaves takes =>
      exact .value ts text leaves fun rest hnext i => (takes rest hnext i).expecting expected
    | gaveUp moved ts rest may => exact may.elim
  · cases houtlook with
    | error moved ts rest text reach clear index furthest still rejects viable =>
      by_cases hstill : moved = 0
      · obtain rfl := still hstill
        subst hstill
        rw [expecting_of_still expected hc hr reach index text]
        exact .error 0 [] rest text reach clear index furthest still
          (fun i => (rejects i).expecting_still expected) fun hsome => absurd rfl hsome
      · have hother : d.index ≠ c.index := by omega
        rw [expecting_of_error expected hr, if_neg hother]
        refine .error moved ts rest text reach clear index furthest still
          (fun i => (rejects i).expecting_moved expected hstill) ?_
        intro hsome
        obtain ⟨us, hus⟩ := viable hsome
        refine ⟨us, ?_⟩
        intro rest' hnext
        obtain ⟨a, ha⟩ := hus rest' hnext
        exact ⟨a, fun i => (ha i).expecting expected⟩
  · have hbound := expecting_of_exhausted expected (show (rule c).1 = .exhausted by rw [hr])
    rcases hr' : Rule.expecting expected rule c with ⟨a | e | _, d'⟩ <;> rw [hr'] at hbound <;>
      cases hbound
    exact .exhausted

theorem attempt_of_exhausted {rule : Rule α} {c : Cursor} (h : (rule c).1 = .exhausted) :
    (attempt rule c).1 = .exhausted := by
  unfold attempt
  rcases hr : rule c with ⟨a | e | _, d⟩ <;> rw [hr] at h <;> cases h

theorem Rule.Takes.attempt {rule : Rule α} {a : α} {ts rest : List Located}
    (h : rule.Takes a ts rest) : (Rule.attempt rule).Takes (some a) ts rest := by
  intro c hc htext
  obtain hbound | ⟨d, hrun, hd⟩ := h c hc htext
  · exact .inl (attempt_of_exhausted hbound)
  · right
    exact ⟨d, by simp only [Rule.attempt, hrun], hd⟩

end combinators

end LineScript
