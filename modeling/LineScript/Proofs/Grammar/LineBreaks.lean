import LineScript.Proofs.Grammar.EarliestError
import LineScript.Proofs.Grammar.Joining
import LineScript.Proofs.Lexer.Tiling

/-!
# Reading across a line break

Put a text on a line of its own after another one. If the first can be split into tokens, the whole
is split into its tokens, the line break and the tokens of the second; if the first is a program,
the whole is one exactly if the second is, and it has the statements of both. If the second is no
program, the whole is refused where the second is.

  * `Position.below a` is where a place comes to stand if its text is put below the text `a`.
  * `Reads.expression_unique`: the tokens decide what expression they begin with.
  * `Reads.further_split`: statements after a separator, of which the first are known, are these and
    the statements of the rest.
  * `Viable`: tokens with which a program can begin.

**Key idea.** Where a program is refused depends on programs only, not on how they are read: the
error is at the end of the longest beginning that some program has. A beginning of the second text
is viable exactly if it is viable after the first text and a line break.
-/

namespace LineScript

open Grammar

/-! ### Places below a text -/

/-- The place `p` of a text that is put on a line of its own after the text `a`. -/
def Position.below (a : String) (p : Position) : Position :=
  ⟨p.offset + (a.length + 1), p.line + (a.toList.count '\n' + 1), p.column⟩

theorem shift_after_line (a : String) :
    (Position.start.advanceAll (a ++ "\n").toList).shift = Position.below a := by
  have horigin : Position.start.advanceAll (a ++ "\n").toList = .after (a.toList ++ ['\n']) := by
    rw [String.toList_append]
    exact Position.advanceAll_after [] _
  funext p
  rw [horigin]
  simp [Position.shift, Position.below, Position.after, Nat.add_comm, String.length_toList]

theorem below_injective (a : String) : Function.Injective (Position.below a) := by
  rintro ⟨offset, line, column⟩ ⟨offset', line', column'⟩ h
  simpa [Position.below] using h

/-! ### Statements after statements -/

theorem EndsInput.dropWhile {ts : List Located} (h : EndsInput ts) :
    EndsInput (ts.dropWhile Located.isNewline) := by
  obtain ⟨init, p, rfl⟩ := h
  rw [List.dropWhile_append]
  split
  · exact ⟨[], p, rfl⟩
  · exact ⟨_, p, rfl⟩

theorem Cursor.Ended.endsInput {c : Cursor} (h : c.Ended) : EndsInput c.rest := by
  obtain ⟨p, hlast⟩ := h.last
  have hlist : c.tokens.toList.getLast? = some ⟨.eof, p⟩ := by
    rw [Array.getLast?_toList, hlast]
  have hrest : c.rest.getLast? = some ⟨.eof, p⟩ := by
    have hlt : ¬ c.tokens.toList.length ≤ c.index := by
      rw [Array.length_toList]
      exact Nat.not_le.mpr h.inside
    rw [Cursor.rest, List.getLast?_drop, if_neg hlt, hlist]
  obtain ⟨init, hinit⟩ := List.getLast?_eq_some_iff.mp hrest
  exact ⟨init, p, hinit⟩

/-- The tokens decide which expression they begin with, and where it ends. -/
theorem Reads.expression_unique {e e' : Expr} {ts rest rest' : List Located} (hend : EndsInput ts)
    (h : Reads (.expression e) ts rest) (h' : Reads (.expression e') ts rest') :
    e' = e ∧ rest' = rest ∧ EndsInput rest := by
  have hc := ended_ofTokens hend
  have hruns : (expression (ts.length + 1) (.ofTokens ts)).1 ≠ .exhausted := by
    refine (runs_expression (ts.length + 1) _ hc).2 ?_
    rw [rest_ofTokens]
    exact Nat.le_refl _
  obtain ⟨d, hrun, hd, hrest⟩ :=
    (h.parsed (ts.length + 1) _ hc (rest_ofTokens ts)).resolve_right hruns
  obtain ⟨d', hrun', -, hrest'⟩ :=
    (h'.parsed (ts.length + 1) _ hc (rest_ofTokens ts)).resolve_right hruns
  cases hrun.symm.trans hrun'
  exact ⟨rfl, hrest'.symm.trans hrest, hrest ▸ hd.endsInput⟩

/-- A separator before others does not matter. -/
theorem Reads.further_of_cons {es : List Expr} {p : Position} {ts rest : List Located}
    (h : Reads (.further es) (⟨.newline, p⟩ :: ts) rest) (hnext : next ts = .newline) :
    Reads (.further es) ts rest := by
  cases ts with
  | nil => cases hnext
  | cons t ts =>
    obtain ⟨token, q⟩ := t
    obtain rfl : token = .newline := hnext
    generalize hall : (⟨.newline, p⟩ :: ⟨.newline, q⟩ :: ts : List Located) = all at h
    cases h with
    | further he hes =>
      obtain ⟨-, rfl⟩ := List.cons.inj hall
      exact .further he hes
    | noFurther hends =>
      subst hall
      exact .noFurther hends

/-- Where only separators are left before the end of input, what follows is that of another
program. -/
theorem Reads.further_after_breaks {es : List Expr} {p : Position}
    {tail ts more rest : List Located}
    (hbreaks : ts.dropWhile Located.isNewline = ⟨.eof, p⟩ :: more)
    (h : Reads (.further es) (resume tail ts) rest) :
    Reads (.further es) (⟨.newline, p⟩ :: tail) rest := by
  induction ts with
  | nil => cases hbreaks
  | cons t ts ih =>
    by_cases hnewline : t.token = .newline
    · obtain ⟨token, q⟩ := t
      subst hnewline
      have hcarries := carries_resume tail
      rw [hcarries.newline] at h
      refine ih hbreaks (h.further_of_cons ?_)
      -- after the separator comes another one, or the end of input, which has become one
      cases ts with
      | nil => cases hbreaks
      | cons s ts =>
        by_cases hs : s.token = .newline
        · rw [hcarries.next_eq (by simp [hs])]
          exact hs
        · have hkeep : (s :: ts).dropWhile Located.isNewline = s :: ts := dropWhile_of_next_ne hs
          rw [dropWhile_newline, hkeep] at hbreaks
          obtain ⟨rfl, -⟩ := List.cons.inj hbreaks
          rw [resume_eof]
          rfl
    · have hkeep : (t :: ts).dropWhile Located.isNewline = t :: ts := dropWhile_of_next_ne hnewline
      rw [hkeep] at hbreaks
      obtain ⟨rfl, -⟩ := List.cons.inj hbreaks
      rwa [resume_eof] at h

/-- Where the statements of a program come to the end of input and others follow instead, these are
the statements of another program. -/
theorem Reads.further_split {as es : List Expr} {p : Position} {tail ts more rest : List Located}
    (hend : EndsInput (resume tail ts)) (ha : Reads (.further as) ts (⟨.eof, p⟩ :: more))
    (h : Reads (.further es) (resume tail ts) rest) :
    ∃ bs, es = as ++ bs ∧ Reads (.further bs) (⟨.newline, p⟩ :: tail) rest := by
  have hcarries := carries_resume tail
  induction as generalizing ts es with
  | nil =>
    generalize hafter : ⟨.eof, p⟩ :: more = after at ha
    cases ha with
    | noFurther => exact ⟨es, rfl, .further_after_breaks hafter.symm h⟩
  | cons e as ih =>
    cases ha with
    | @further _ _ q ts mid _ he hes =>
      have hfirst := he.carry hcarries (anyFollows rfl)
      rw [Phrase.relocate, Expr.relocate_id, ← hcarries.dropWhile_of_reads he] at hfirst
      rw [hcarries.newline] at hend h
      have hend' : EndsInput ((resume tail ts).dropWhile Located.isNewline) := hend.dropWhile
      generalize hall : (⟨.newline, id q⟩ :: resume tail ts : List Located) = all at h
      cases h with
      | further he' hes' =>
        -- the first statement of both is the same
        obtain ⟨-, rfl⟩ := List.cons.inj hall
        obtain ⟨rfl, rfl, hrest⟩ := Reads.expression_unique hend' hfirst he'
        obtain ⟨bs, rfl, hbs⟩ := ih hrest hes hes'
        exact ⟨bs, rfl, hbs⟩
      | noFurther hends =>
        subst hall
        rw [dropWhile_newline] at hends
        exact absurd hfirst.opens (by simp [Phrase.Opens, hends])

/-- If two texts, the second on a line of its own after the first, are a program and the first is
one, so is the second. -/
theorem parse_of_resume {ta tb : List Located} {as es : List Expr} {p r : Position}
    (hta : EndsOnce ta) (htb : EndsInput tb) (ha : (parse ta).1 = .value (.list as p))
    (h : (parse (resume tb ta)).1 = .value (.list es r)) :
    ∃ tree, (parse tb).1 = .value tree := by
  have hend := hta.resume htb
  obtain ⟨rest, hreada, -⟩ := readsProgram_of_parse hta.1 ha
  obtain ⟨rest', hread, -⟩ := readsProgram_of_parse hend h
  obtain ⟨u, hfurthera⟩ := (further_iff_readsProgram p).mpr ⟨p, hreada⟩
  obtain ⟨v, hfurther⟩ := (further_iff_readsProgram p).mpr ⟨r, hread⟩
  have hcarries := carries_resume tb
  have hwhole : Reads (.further es) (resume tb (⟨.newline, p⟩ :: ta)) (⟨.eof, v⟩ :: rest') := by
    rw [hcarries.newline]
    exact hfurther
  have hend' : EndsInput (resume tb (⟨.newline, p⟩ :: ta)) := by
    obtain ⟨init, q, hinit⟩ := hend
    rw [hcarries.newline, hinit]
    exact ⟨⟨.newline, p⟩ :: init, q, rfl⟩
  obtain ⟨bs, -, hfurtherb⟩ := Reads.further_split hend' hfurthera hwhole
  obtain ⟨q, hreadb⟩ := (further_iff_readsProgram u).mp ⟨v, hfurtherb⟩
  exact ⟨_, parse_of_readsProgram htb hreadb⟩

/-! ### Viable beginnings -/

/-- Some program begins with the tokens. -/
def Viable (ts : List Located) : Prop :=
  ∃ us p tree, (parse (ts ++ us ++ [⟨.eof, p⟩])).1 = .value tree

theorem Viable.of_append {ts us : List Located} (h : Viable (ts ++ us)) : Viable ts := by
  obtain ⟨vs, p, tree, htree⟩ := h
  exact ⟨us ++ vs, p, tree, by rwa [← List.append_assoc ts]⟩

/-- An error is at the end of the longest viable beginning. -/
theorem parse_error_viable {tokens : List Located} {e : SyntaxError} (hend : EndsInput tokens)
    (hlegible : ∀ t ∈ tokens, t.token.Legible) (hparse : (parse tokens).1 = .error e) :
    ∃ before after, tokens = before ++ ⟨e.found, e.position⟩ :: after ∧ Viable before ∧
      ¬ Viable (before ++ [⟨e.found, e.position⟩]) := by
  obtain ⟨breaks, ts, rest, moved, rfl, hbreaks, hnewline, heof, hrejects, hcompletes⟩ :=
    parse_error_cases hend hlegible hparse
  refine ⟨breaks ++ ts, rest, by rw [List.append_assoc], ?_, ?_⟩
  · cases ts with
    | nil =>
      obtain ⟨tree, htree⟩ := parse_of_breaks hbreaks .start
      exact ⟨[], .start, tree, by simpa using htree⟩
    | cons t ts =>
      obtain ⟨us, hus⟩ := parse_of_completes hbreaks (List.cons_ne_nil t ts) hnewline heof
        (hcompletes (List.cons_ne_nil t ts))
      obtain ⟨tree, htree⟩ := hus .start
      exact ⟨placed us, .start, tree, htree⟩
  · rintro ⟨us, p, tree, htree⟩
    have hshape : breaks ++ ts ++ [⟨e.found, e.position⟩] ++ us ++ [⟨.eof, p⟩] =
        breaks ++ (ts ++ ⟨e.found, e.position⟩ :: (us ++ [⟨.eof, p⟩])) := by simp
    rw [hshape] at htree
    have hend' : EndsInput (breaks ++ (ts ++ ⟨e.found, e.position⟩ :: (us ++ [⟨.eof, p⟩]))) :=
      ⟨_, p, hshape.symm⟩
    rw [parse_of_rejects hend' hbreaks hnewline heof hrejects] at htree
    cases htree

/-- There is only one longest viable beginning. -/
theorem viable_unique {xs ys after after' : List Located} {x y : Located}
    (hsame : xs ++ x :: after = ys ++ y :: after') (hx : Viable xs) (hx' : ¬ Viable (xs ++ [x]))
    (hy : Viable ys) (hy' : ¬ Viable (ys ++ [y])) : x = y := by
  rcases List.append_eq_append_iff.mp hsame with ⟨more, rfl, hmore⟩ | ⟨more, rfl, hmore⟩
  · cases more with
    | nil => exact (List.cons.inj hmore).1
    | cons z more =>
      obtain ⟨rfl, -⟩ := List.cons.inj hmore
      rw [List.append_cons] at hy
      exact absurd hy.of_append hx'
  · cases more with
    | nil => exact (List.cons.inj hmore).1.symm
    | cons z more =>
      obtain ⟨rfl, -⟩ := List.cons.inj hmore
      rw [List.append_cons] at hx
      exact absurd hx.of_append hy'

/-- Places do not matter. -/
theorem Viable.relocate {ts : List Located} (h : Viable ts) (f : Position → Position) :
    Viable (ts.map (Located.relocate f)) := by
  obtain ⟨us, p, tree, htree⟩ := h
  have hmoved := parse_relocate f ⟨ts ++ us, p, rfl⟩ htree
  rw [List.map_append, List.map_append] at hmoved
  exact ⟨us.map (Located.relocate f), f p, _, hmoved⟩

/-- Tokens that are moved can be moved back. -/
theorem relocate_back {f : Position → Position} (hf : Function.Injective f) (ts : List Located) :
    (ts.map (Located.relocate f)).map (Located.relocate (Function.invFun f)) = ts := by
  have hsame : Located.relocate (Function.invFun f) ∘ Located.relocate f = id := by
    funext t
    exact congrArg (Located.mk t.token) (Function.leftInverse_invFun hf t.position)
  rw [List.map_map, hsame, List.map_id]

theorem Viable.of_relocate {ts : List Located} {f : Position → Position}
    (hf : Function.Injective f) (h : Viable (ts.map (Located.relocate f))) : Viable ts := by
  rw [← relocate_back hf ts]
  exact h.relocate _

section below

variable {init : List Located} {as : List Expr} {p q : Position}
  (hta : EndsOnce (init ++ [⟨.eof, p⟩])) (ha : (parse (init ++ [⟨.eof, p⟩])).1 = .value (.list as q))

include hta

theorem resume_below (tail : List Located) :
    resume tail (init ++ [⟨.eof, p⟩]) = init ++ ⟨.newline, p⟩ :: tail := by
  obtain ⟨-, hinit⟩ := hta
  rw [List.dropLast_concat] at hinit
  rw [resume_append _ _ hinit, resume_eof]

include ha

/-- What a program can begin with can come after another program and a line break, and nothing
else can. -/
theorem viable_below {ts : List Located} :
    Viable (init ++ ⟨.newline, p⟩ :: ts) ↔ Viable ts := by
  have hshape (us : List Located) (r : Position) :
      init ++ ⟨.newline, p⟩ :: ts ++ us ++ [⟨.eof, r⟩] =
        resume (ts ++ us ++ [⟨.eof, r⟩]) (init ++ [⟨.eof, p⟩]) := by
    rw [resume_below hta]
    simp
  have hends (us : List Located) (r : Position) : EndsInput (ts ++ us ++ [⟨.eof, r⟩]) :=
    ⟨ts ++ us, r, rfl⟩
  constructor
  · rintro ⟨us, r, tree, htree⟩
    rw [hshape] at htree
    obtain ⟨es, u, rfl⟩ := exists_list_of_parse (hta.resume (hends us r)) htree
    obtain ⟨tree', htree'⟩ := parse_of_resume hta (hends us r) ha htree
    exact ⟨us, r, tree', htree'⟩
  · rintro ⟨us, r, tree, htree⟩
    obtain ⟨bs, u, rfl⟩ := exists_list_of_parse (hends us r) htree
    obtain ⟨v, hwhole⟩ := parse_append hta (hends us r) ha htree
    exact ⟨us, r, _, by rw [hshape]; exact hwhole⟩

/-- A text that is no program is refused at the same token below a program. -/
theorem parse_error_below {f : Position → Position} (hf : Function.Injective f)
    {tb : List Located} {e : SyntaxError} (htb : EndsInput tb)
    (hlegible : ∀ t ∈ init ++ ⟨.newline, p⟩ :: tb.map (Located.relocate f), t.token.Legible)
    (hb : (parse tb).1 = .error e) :
    ∃ e', (parse (init ++ ⟨.newline, p⟩ :: tb.map (Located.relocate f))).1 = .error e' ∧
      e'.found = e.found ∧ e'.position = f e.position := by
  have hmoved := htb.relocate f
  have hend : EndsInput (init ++ ⟨.newline, p⟩ :: tb.map (Located.relocate f)) := by
    rw [← resume_below hta]
    exact hta.resume hmoved
  have hlegible' : ∀ t ∈ tb, t.token.Legible := by
    intro t ht
    exact hlegible (t.relocate f) (by simp [List.mem_map_of_mem ht])
  rcases hwhole : (parse (init ++ ⟨.newline, p⟩ :: tb.map (Located.relocate f))).1 with
    tree | e' | -
  · -- as the whole is a program, so would the second text be
    rw [← resume_below hta] at hwhole
    obtain ⟨es, u, rfl⟩ := exists_list_of_parse (hta.resume hmoved) hwhole
    obtain ⟨tree, htree⟩ := parse_of_resume hta hmoved ha hwhole
    have hback := parse_relocate (Function.invFun f) hmoved htree
    rw [relocate_back hf, hb] at hback
    cases hback
  · obtain ⟨before, after, rfl, hbefore, hbeyond⟩ := parse_error_viable htb hlegible' hb
    obtain ⟨before', after', hsplit, hbefore', hbeyond'⟩ := parse_error_viable hend hlegible hwhole
    rw [List.map_append, List.map_cons, ← List.cons_append, ← List.append_assoc] at hsplit
    have hviable := (viable_below hta ha).mpr (hbefore.relocate f)
    have hnot : ¬ Viable (init ++ ⟨.newline, p⟩ :: before.map (Located.relocate f) ++
        [Located.relocate f ⟨e.found, e.position⟩]) := by
      rw [List.append_assoc, List.cons_append, viable_below hta ha]
      intro h
      refine hbeyond (.of_relocate hf ?_)
      rw [List.map_append]
      exact h
    obtain ⟨hfound, hposition⟩ := Located.mk.inj
      (viable_unique hsplit hviable hnot hbefore' hbeyond')
    exact ⟨e', rfl, hfound.symm, hposition.symm⟩
  · exact absurd hwhole (parse_ne_exhausted hend)

end below

/-- What a text below the text `a` is split into. -/
theorem shiftResult_below (a : String) (result : Except LexError (List Located)) :
    shiftResult (Position.start.advanceAll (a ++ "\n").toList) result =
      match result with
      | .ok tb => .ok (tb.map (Located.relocate (.below a)))
      | .error e => .error ⟨e.flaw, e.position.below a⟩ := by
  rw [← shift_after_line]
  rfl

/-- Two texts, the second on a line of its own after the first: the tokens are those of the first,
with a line break in place of the end of input, and those of the second, moved, or the flaw of the
second, moved. If the first is a program, then either so are the second and the whole, which has the
statements of both, or both are refused, at the same token. -/
theorem reading_joins_at_line_break {a : String} {ta : List Located} (ha : tokenize a = .ok ta)
    (b : String) :
    ∃ init p, ta = init ++ [⟨.eof, p⟩] ∧
      (tokenize (a ++ "\n" ++ b) =
        match tokenize b with
        | .ok tb => .ok (init ++ ⟨.newline, p⟩ :: tb.map (Located.relocate (.below a)))
        | .error e => .error ⟨e.flaw, e.position.below a⟩) ∧
      ∀ tree tb, (parse ta).1 = .value tree → tokenize b = .ok tb → ∃ as q, tree = .list as q ∧
        ((∃ bs r r', (parse tb).1 = .value (.list bs r) ∧
            (parse (init ++ ⟨.newline, p⟩ :: tb.map (Located.relocate (.below a)))).1 =
              .value (.list (as ++ Expr.relocateAll (.below a) bs) r')) ∨
          ∃ e e', (parse tb).1 = .error e ∧
            (parse (init ++ ⟨.newline, p⟩ :: tb.map (Located.relocate (.below a)))).1 =
              .error e' ∧
            e'.found = e.found ∧ e'.position = e.position.below a) := by
  have hta := endsOnce_of_tokenize ha
  obtain ⟨init, p, rfl⟩ := hta.1
  have hjoined : tokenize (a ++ "\n" ++ b) =
      match tokenize b with
      | .ok tb => .ok (init ++ ⟨.newline, p⟩ :: tb.map (Located.relocate (.below a)))
      | .error e => .error ⟨e.flaw, e.position.below a⟩ := by
    rw [tokenize_below ha, shiftResult_below]
    cases tokenize b with
    | ok tb => exact congrArg Except.ok (resume_below hta _)
    | error e => rfl
  refine ⟨init, p, rfl, hjoined, ?_⟩
  intro tree tb hparsea hb
  rw [hb] at hjoined
  have htb := (endsOnce_of_tokenize hb).1
  obtain ⟨as, q, rfl⟩ := exists_list_of_parse hta.1 hparsea
  refine ⟨as, q, rfl, ?_⟩
  rcases hparse : (parse tb).1 with treeb | e | -
  · left
    obtain ⟨bs, r, rfl⟩ := exists_list_of_parse htb hparse
    obtain ⟨r', hwhole⟩ := parse_append hta (htb.relocate (.below a)) hparsea
      (parse_relocate (.below a) htb hparse)
    rw [resume_below hta] at hwhole
    exact ⟨bs, r, r', rfl, hwhole⟩
  · right
    obtain ⟨e', herror, hsame⟩ := parse_error_below hta hparsea (below_injective a) htb
      (legible_of_tokenize hjoined) hparse
    exact ⟨e, e', rfl, herror, hsame⟩
  · exact absurd hparse (parse_ne_exhausted htb)

/-- The tokens of `IF x THEN 1`. -/
def inlineConditional : List Located :=
  [⟨.keyword .if_, ⟨0, 0, 0⟩⟩, ⟨.identifier "x", ⟨3, 0, 3⟩⟩, ⟨.keyword .then_, ⟨5, 0, 5⟩⟩,
    ⟨.int "1", ⟨10, 0, 10⟩⟩, ⟨.eof, ⟨11, 0, 11⟩⟩]

/-- A branch on a line of its own does not belong to the conditional above it: it is refused there as
it is on its own. -/
theorem branch_below_conditional_refused :
    tokenize "IF x THEN 1" = .ok inlineConditional ∧
      ∃ tokens e, tokenize "IF x THEN 1\nELSE 2" = .ok tokens ∧ (parse tokens).1 = .error e ∧
        e.found = .keyword .else_ ∧ e.position = ⟨12, 1, 0⟩ := by
  have hfirst : tokenize "IF x THEN 1" = .ok inlineConditional := by decide
  have hsecond : tokenize "ELSE 2" =
      .ok [⟨.keyword .else_, ⟨0, 0, 0⟩⟩, ⟨.int "2", ⟨5, 0, 5⟩⟩, ⟨.eof, ⟨6, 0, 6⟩⟩] := by decide
  obtain ⟨init, p, -, hjoined, hparsed⟩ := reading_joins_at_line_break hfirst "ELSE 2"
  rw [hsecond] at hjoined
  obtain ⟨as, q, -, ⟨bs, r, r', hvalue, -⟩ | ⟨e, e', hown, hwhole, hfound, hposition⟩⟩ :=
    hparsed _ _ rfl hsecond
  · cases hvalue
  · cases hown
    exact ⟨hfirst, _, e', hjoined, hwhole, hfound, hposition⟩

end LineScript
