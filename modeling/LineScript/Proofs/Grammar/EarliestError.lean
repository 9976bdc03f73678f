import LineScript.Proofs.Grammar.Frontier

/-!
# Errors are found at the earliest token

A program is refused at the first token with which no program goes on, whatever comes after it.

**Proof.** A program is line breaks, statements and the end of input. Statements with the end of
input after them are a rule that ends as foreseen (`foresees_program`): a statement that was given
up is settled there. So an error says how all lists of tokens with the same beginning end, and how
the beginning can be completed (`parse_error_cases`).
-/

namespace LineScript

open Run Rule

namespace Grammar

/-! ### Programs -/

/-- The end of a program: the end of input, or the error for what stands there. -/
def finish (tree : Expr) : Rule Expr := do
  if ← sees .eof then
    record (.parsed (statementCount tree))
    pure tree
  else failOr (·.unexpected "an operator or end of input")

theorem foreseen_finish (tree : Expr) :
    Foreseen [] (· = .eof) (finish tree) fun _ : ι => finish tree := by
  have htakes : ∀ rest, next rest = .eof → (finish tree).Takes tree [] rest := by
    intro rest hnext c hc htext
    have hpeek : c.peek = .eof := by
      rw [← hc.ended.next_rest, htext]
      exact hnext
    right
    refine ⟨_, (sees_apply _ _ _ c).trans (if_pos hpeek), ?_, hc.clear, htext⟩
    exact .of_same hc.ended rfl rfl
  refine ⟨?_, fun rest hnext => ⟨tree, fun _ => htakes rest hnext⟩⟩
  intro c hc _
  rw [finish, sees_apply]
  by_cases hpeek : c.peek = .eof
  · rw [if_pos hpeek]
    refine .value [] rfl ⟨.of_same hc.ended rfl rfl, hc.clear, rfl⟩ ?_
    intro rest hnext _
    refine htakes rest (hnext.elim (fun hsame => hsame.trans ?_) id)
    exact (Cursor.peek_of_same rfl rfl).trans hpeek
  · rw [if_neg hpeek, failOr_of_clear _ hc.clear]
    refine .error 0 [] (c.tokens.toList.drop (c.index + 1)) hc.ended.rest_eq hc.ended.refl hc.clear
      rfl (Nat.le_refl 0) (fun _ => rfl) ?_ fun hsome => absurd rfl hsome
    intro _ c' rest hc' htext'
    have hcurrent : c'.current = c.current := hc'.current_eq htext'
    have hpeek' : c'.peek ≠ .eof := by
      rw [Cursor.peek, hcurrent]
      exact hpeek
    right
    refine ⟨c', ?_, hc'.ended.refl, hc'.clear, rfl⟩
    refine (sees_apply _ _ _ c').trans ((if_neg hpeek').trans ?_)
    rw [failOr_of_clear _ hc'.clear]
    simp only [Cursor.unexpected, Cursor.peek, Cursor.position, hcurrent]

theorem settles_finish (tree : Expr) : Settles (finish tree) :=
  .of_sees (by decide) (settles_failOr _)

/-- The statements of a program. -/
theorem foresees_program (m : Nat) :
    Foresees (· = .eof) ((nested m).statements >>= finish)
      fun k => (nested k).statements >>= finish := by
  refine (foreseen_nested m).statements.bind_settled foreseen_finish ?_ ?_ settles_finish
    fun _ => settles_finish
  · intro rest hnext
    show (next rest).Closes
    rw [hnext]
    trivial
  · rintro _ rfl
    trivial

theorem programOver_of_empty {sub : Nested} {c : Cursor} (h : c.skipNewlines.2.peek = .eof) :
    programOver sub c = (.value (.list [] c.skipNewlines.2.position), c.skipNewlines.2) := by
  rw [programOver_apply, if_pos h]

theorem programOver_of_statements {sub : Nested} {c : Cursor} (h : c.skipNewlines.2.peek ≠ .eof) :
    programOver sub c = (sub.statements >>= finish) c.skipNewlines.2 := by
  simp only [programOver, Run.bind_apply, skipNewlines, sees, look, decide_eq_false h]
  rfl

end Grammar

open Grammar

theorem Token.Lexical.legible {token : Token} (h : token.Lexical) : token.Legible := by
  cases token with
  | int text => exact h.isSome_read?
  | float text => exact h.isSome_read?
  | _ => trivial

/-- The numbers of a text can be read. -/
theorem legible_of_tokenize {source : String} {tokens : List Located}
    (h : tokenize source = .ok tokens) : ∀ t ∈ tokens, t.token.Legible := by
  obtain ⟨init, q, rfl, hinit⟩ := tokenize_shape h
  intro t ht
  rw [List.mem_append, List.mem_singleton] at ht
  rcases ht with ht | rfl
  · exact (hinit t ht).lexical.legible
  · trivial

theorem fresh_ofTokens {tokens : List Located} (hend : EndsInput tokens) :
    (Cursor.ofTokens tokens).Fresh :=
  ⟨ended_ofTokens hend, rfl⟩

/-- A program that begins with line breaks, and after them with something else. -/
theorem rest_skipNewlines_ofTokens {breaks text : List Located}
    (hend : EndsInput (breaks ++ text)) (hbreaks : ∀ t ∈ breaks, t.isNewline = true)
    (hnext : next text ≠ .newline) :
    (Cursor.ofTokens (breaks ++ text)).skipNewlines.2.rest = text := by
  rw [(ended_ofTokens hend).rest_skipNewlines, rest_ofTokens,
    List.dropWhile_append_of_pos hbreaks]
  cases text with
  | nil => rfl
  | cons t text => 
    have hother : t.isNewline = false := decide_eq_false hnext
    rw [List.dropWhile_cons, hother]
    rfl

section program

variable {breaks text : List Located}

/-- Nothing but line breaks is a program. -/
theorem parse_of_breaks (hbreaks : ∀ t ∈ breaks, t.isNewline = true) (p : Position) :
    ∃ tree, (parse (breaks ++ [⟨.eof, p⟩])).1 = .value tree := by
  have hend : EndsInput (breaks ++ [⟨.eof, p⟩]) := ⟨breaks, p, rfl⟩
  have hrest := rest_skipNewlines_ofTokens hend hbreaks nofun
  obtain ⟨-, hleaves, -⟩ := (fresh_ofTokens hend).skipNewlines
  have hpeek : (Cursor.ofTokens (breaks ++ [⟨.eof, p⟩])).skipNewlines.2.peek = .eof := by
    rw [← (hleaves.fresh (fresh_ofTokens hend)).ended.next_rest, hrest]
    rfl
  exact ⟨_, congrArg Prod.fst (programOver_of_empty hpeek)⟩

/-- After line breaks, a program is its statements up to the end of input. -/
theorem parse_of_text (hend : EndsInput (breaks ++ text))
    (hbreaks : ∀ t ∈ breaks, t.isNewline = true) (hnewline : next text ≠ .newline)
    (heof : next text ≠ .eof) :
    ∃ m, ∃ d : Cursor, d.Fresh ∧ d.rest = text ∧
      parse (breaks ++ text) = ((nested m).statements >>= finish) d ∧
      (((nested m).statements >>= finish) d).1 ≠ .exhausted := by
  have hc := fresh_ofTokens hend
  have hrest := rest_skipNewlines_ofTokens hend hbreaks hnewline
  obtain ⟨-, hleaves, -⟩ := hc.skipNewlines
  have hd := hleaves.fresh hc
  have hparse : parse (breaks ++ text) = _ := programOver_of_statements (by
    rw [← hd.ended.next_rest, hrest]
    exact heof)
  refine ⟨_, _, hd, hrest, hparse, ?_⟩
  rw [← hparse]
  exact parse_ne_exhausted hend

theorem next_append_cons (ts : List Located) (t : Located) (rest : List Located) :
    next (ts ++ t :: rest) = next (ts ++ [t]) := by
  cases ts <;> rfl

/-- Where the statements of a program are to fail, the program fails. -/
theorem parse_of_rejects {e : SyntaxError} {moved : Nat} {ts rest : List Located}
    (hend : EndsInput (breaks ++ (ts ++ ⟨e.found, e.position⟩ :: rest)))
    (hbreaks : ∀ t ∈ breaks, t.isNewline = true)
    (hnewline : next (ts ++ [⟨e.found, e.position⟩]) ≠ .newline)
    (heof : next (ts ++ [⟨e.found, e.position⟩]) ≠ .eof)
    (hrejects : ∀ m, Rejects e moved ts ((nested m).statements >>= finish)) :
    (parse (breaks ++ (ts ++ ⟨e.found, e.position⟩ :: rest))).1 = .error e := by
  rw [← next_append_cons ts _ rest] at hnewline heof
  obtain ⟨m, d, hd, hrest, hparse, hruns⟩ := parse_of_text hend hbreaks hnewline heof
  obtain ⟨d', hrun, -⟩ := (hrejects m d rest hd hrest).resolve_left hruns
  rw [hparse, hrun]

/-- Where the statements of a program can be completed, the program can. -/
theorem parse_of_completes {ts : List Located} (hbreaks : ∀ t ∈ breaks, t.isNewline = true)
    (hsome : ts ≠ []) (hnewline : next ts ≠ .newline) (heof : next ts ≠ .eof)
    (hcompletes : Completes (· = .eof) (fun m => (nested m).statements >>= finish) ts) :
    ∃ us, ∀ p, ∃ tree, (parse (breaks ++ ts ++ placed us ++ [⟨.eof, p⟩])).1 = .value tree := by
  obtain ⟨us, hus⟩ := hcompletes
  refine ⟨us, ?_⟩
  intro p
  obtain ⟨tree, htree⟩ := hus [⟨.eof, p⟩] rfl
  have hshape : breaks ++ ts ++ placed us ++ [⟨.eof, p⟩] =
      breaks ++ (ts ++ placed us ++ [⟨.eof, p⟩]) := by simp only [List.append_assoc]
  have hnext : next (ts ++ placed us ++ [⟨.eof, p⟩]) = next ts := by
    obtain ⟨t, ts, rfl⟩ := List.exists_cons_of_ne_nil hsome
    rfl
  have hend : EndsInput (breaks ++ (ts ++ placed us ++ [⟨.eof, p⟩])) := by
    rw [← hshape]
    exact ⟨_, p, rfl⟩
  obtain ⟨m, d, hd, hrest, hparse, hruns⟩ :=
    parse_of_text hend hbreaks (hnext ▸ hnewline) (hnext ▸ heof)
  obtain ⟨d', hrun, -⟩ := (htree m d hd hrest).resolve_left hruns
  refine ⟨tree, ?_⟩
  rw [hshape, hparse]
  exact congrArg Prod.fst hrun

/-- Where a program fails: after line breaks and the tokens `ts`, with what this says about other
programs that begin so. -/
theorem parse_error_cases {tokens : List Located} {e : SyntaxError} (hend : EndsInput tokens)
    (hlegible : ∀ t ∈ tokens, t.token.Legible) (hparse : (parse tokens).1 = .error e) :
    ∃ breaks ts rest moved, tokens = breaks ++ (ts ++ ⟨e.found, e.position⟩ :: rest) ∧
      (∀ t ∈ breaks, t.isNewline = true) ∧
      next (ts ++ [⟨e.found, e.position⟩]) ≠ .newline ∧
      next (ts ++ [⟨e.found, e.position⟩]) ≠ .eof ∧
      (∀ m, Rejects e moved ts ((nested m).statements >>= finish)) ∧
      (ts ≠ [] → Completes (· = .eof) (fun m => (nested m).statements >>= finish) ts) := by
  have hc := fresh_ofTokens hend
  obtain ⟨htext, hleaves, -⟩ := hc.skipNewlines
  have hd := hleaves.fresh hc
  by_cases hempty : (Cursor.ofTokens tokens).skipNewlines.2.peek = .eof
  · -- a program without statements has a tree
    rw [show parse tokens = _ from programOver_of_empty hempty] at hparse
    cases hparse
  have hcursor : (Cursor.ofTokens tokens).Legible := by
    intro t ht
    exact hlegible t (List.mem_toArray.mp ht)
  have houtlook := foresees_program (bound tokens.length) _ hd (hleaves.reach.legible hcursor)
  rw [show parse tokens = _ from programOver_of_statements hempty] at hparse
  rcases hr : ((nested (bound tokens.length)).statements >>= finish)
    (Cursor.ofTokens tokens).skipNewlines.2 with ⟨tree | e' | _, d⟩ <;>
    rw [hr] at houtlook hparse <;> cases hparse
  cases houtlook with
  | error moved ts rest text reach clear index furthest still rejects viable =>
    have hnext : next (ts ++ [⟨e.found, e.position⟩]) =
        (Cursor.ofTokens tokens).skipNewlines.2.peek := by
      rw [← next_append_cons ts _ rest, ← text]
      exact hd.ended.next_rest
    rw [rest_ofTokens, text] at htext
    refine ⟨_, ts, rest, moved, htext, List.all_eq_true.mp List.all_takeWhile, ?_, ?_, rejects,
      viable⟩
    · rw [hnext]
      exact hc.peek_skipNewlines_ne
    · rw [hnext]
      exact hempty

end program

/-- An error is found at the earliest token where it can be found, and what comes after this token
has no part in it. If the tokens of a text are no program, the error names one of them; the tokens
before it can be completed to a program; and all lists of tokens that are the same up to it fail
with the same error. -/
theorem parse_error_at_earliest_token {source : String} {tokens : List Located} {e : SyntaxError}
    (hread : tokenize source = .ok tokens) (hparse : (parse tokens).1 = .error e) :
    ∃ k, tokens[k]? = some ⟨e.found, e.position⟩ ∧
      (∃ s : List Located, (∀ t ∈ s, t.token.IsLexeme) ∧
        ∀ p, ∃ tree, (parse (tokens.take k ++ s ++ [⟨.eof, p⟩])).1 = .value tree) ∧
      ∀ tokens', EndsInput tokens' → tokens'.take (k + 1) = tokens.take (k + 1) →
        (parse tokens').1 = .error e := by
  obtain ⟨init, q, hshape, -⟩ := tokenize_shape hread
  obtain ⟨breaks, ts, rest, moved, rfl, hbreaks, hnewline, heof, hrejects, hcompletes⟩ :=
    parse_error_cases ⟨init, q, hshape⟩ (legible_of_tokenize hread) hparse
  rw [← List.append_assoc]
  refine ⟨(breaks ++ ts).length, ?_, ?_, ?_⟩
  · rw [List.getElem?_append_right (Nat.le_refl _), Nat.sub_self]
    rfl
  · rw [List.take_left]
    by_cases hsome : ts = []
    · subst hsome
      refine ⟨[], nofun, ?_⟩
      simpa using parse_of_breaks hbreaks
    · have hnext : next (ts ++ [⟨e.found, e.position⟩]) = next ts := by
        obtain ⟨t, ts, rfl⟩ := List.exists_cons_of_ne_nil hsome
        rfl
      rw [hnext] at hnewline heof
      obtain ⟨us, hus⟩ := parse_of_completes hbreaks hsome hnewline heof (hcompletes hsome)
      exact ⟨placed us, isLexeme_placed us, hus⟩
  · intro tokens' hend hsame
    -- the other list is the same up to the token that the error names
    have hsplit : tokens' = breaks ++ (ts ++ ⟨e.found, e.position⟩ ::
        tokens'.drop ((breaks ++ ts).length + 1)) := by
      have hboth := List.take_append_drop ((breaks ++ ts).length + 1) tokens'
      rw [hsame, List.take_length_add_append] at hboth
      simpa using hboth.symm
    rw [hsplit] at hend ⊢
    exact parse_of_rejects hend hbreaks hnewline heof hrejects

/-- The tokens of a loop whose second statement lacks its `=`. -/
def unfinishedLoop : List Located :=
  [⟨.int "1", ⟨0, 0, 0⟩⟩, ⟨.newline, ⟨1, 0, 1⟩⟩, ⟨.keyword .while_, ⟨2, 1, 0⟩⟩,
    ⟨.identifier "x", ⟨8, 1, 6⟩⟩, ⟨.keyword .then_, ⟨10, 1, 8⟩⟩, ⟨.newline, ⟨14, 1, 12⟩⟩,
    ⟨.identifier "x", ⟨15, 2, 0⟩⟩, ⟨.newline, ⟨16, 2, 1⟩⟩, ⟨.keyword .var, ⟨17, 3, 0⟩⟩,
    ⟨.identifier "x", ⟨21, 3, 4⟩⟩, ⟨.newline, ⟨22, 3, 5⟩⟩, ⟨.keyword .end_, ⟨23, 4, 0⟩⟩,
    ⟨.eof, ⟨26, 4, 3⟩⟩]

/-- The missing `=` is reported although the statement and the loop around it are given up: the ten
tokens before the line break can be completed, and nothing after it matters. -/
theorem unfinished_loop_fails_at_line_break :
    tokenize "1\nWHILE x THEN\nx\nVAR x\nEND" = .ok unfinishedLoop ∧
      (∃ s p tree, (parse (unfinishedLoop.take 10 ++ s ++ [⟨.eof, p⟩])).1 = .value tree) ∧
      ∀ tokens', EndsInput tokens' → tokens'.take 11 = unfinishedLoop.take 11 →
        (parse tokens').1 = .error (.unexpected "'='" .newline ⟨22, 3, 5⟩) := by
  have hread : tokenize "1\nWHILE x THEN\nx\nVAR x\nEND" = .ok unfinishedLoop := rfl
  have hparse : (parse unfinishedLoop).1 = .error (.unexpected "'='" .newline ⟨22, 3, 5⟩) := rfl
  obtain ⟨k, hk, ⟨s, -, hs⟩, hsame⟩ := parse_error_at_earliest_token hread hparse
  -- no token occurs twice, so the one that is named is the eleventh
  have hdistinct : unfinishedLoop.Nodup := by decide
  have hindex : 10 = k := (List.getElem?_inj (by decide) hdistinct).mp hk.symm
  subst hindex
  obtain ⟨tree, htree⟩ := hs .start
  exact ⟨hread, ⟨s, .start, tree, htree⟩, hsame⟩

end LineScript
