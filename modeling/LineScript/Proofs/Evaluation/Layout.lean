import LineScript.Proofs.Evaluation.Pieces
import LineScript.Proofs.Evaluation.Timeless
import LineScript.Proofs.Grammar.Layout

/-!
# Layout does not change what a program does

Two texts whose tokens differ only in their places and in the lengths of runs of separators are read
as the same program up to places. Places are stored in trees, scopes, functions and faults, but
nothing that a program does depends on them.

  * `placeless` is the likeness of code at any places: expressions and bodies are alike if they are
    the same up to places, and all places are alike.
  * `EndAlike`: how two programs end if only their layout differs.

**Key idea.** The relation between trees that the parser keeps is one that the evaluator keeps, so
the two are put together at the tree.
-/

namespace LineScript

/-! ### Code at any places -/

theorem forall₂_of_allAlike {es es' : List Expr} (h : Expr.AllAlike es es') :
    List.Forall₂ Expr.Alike es es' := by
  induction es generalizing es' with
  | nil =>
    cases es' with
    | nil => exact .nil
    | cons e' es' => cases h
  | cons e es ih =>
    cases es' with
    | nil => cases h
    | cons e' es' =>
      obtain ⟨he, hes⟩ := List.cons.inj h
      exact .cons he (ih hes)

theorem likeStep_of_alike {step step' : Option Expr} (h : Expr.StepAlike step step') :
    LikeStep Expr.Alike step step' := by
  cases step with
  | none =>
    cases step' with
    | none => exact .none
    | some e' => cases h
  | some e =>
    cases step' with
    | none => cases h
    | some e' => exact .some (Option.some.inj h)

theorem likeChain_of_alike : ∀ {chain chain' : Chain}, chain.Alike chain' →
    LikeChain Expr.Alike Body.Alike chain chain'
  | .done, chain', h => by
    cases chain' with
    | done => exact .done
    | _ => cases h
  | .otherwise b, chain', h => by
    cases chain' with
    | otherwise b' => exact .otherwise (Chain.otherwise.inj h)
    | _ => cases h
  | .elif c b r, chain', h => by
    cases chain' with
    | elif c' b' r' =>
      obtain ⟨hc, hb, hr⟩ := Chain.elif.inj h
      exact .elif hc hb (likeChain_of_alike hr)
    | _ => cases h
termination_by structural chain => chain

theorem likeNode_of_alike {e e' : Expr} (h : e.Alike e') :
    LikeNode (fun _ _ => True) Expr.Alike Body.Alike e e' := by
  cases e with
  | number value p =>
    cases e' with
    | number value' p' =>
      obtain ⟨rfl, -⟩ := Expr.number.inj h
      exact .number value trivial
    | _ => cases h
  | text value p =>
    cases e' with
    | text value' p' =>
      obtain ⟨rfl, -⟩ := Expr.text.inj h
      exact .text value trivial
    | _ => cases h
  | list es p =>
    cases e' with
    | list es' p' => exact .list (forall₂_of_allAlike (Expr.list.inj h).1) trivial
    | _ => cases h
  | name name p =>
    cases e' with
    | name name' p' =>
      obtain ⟨rfl, -⟩ := Expr.name.inj h
      exact .name name trivial
    | _ => cases h
  | assign name value p =>
    cases e' with
    | assign name' value' p' =>
      obtain ⟨rfl, hvalue, -⟩ := Expr.assign.inj h
      exact .assign name hvalue trivial
    | _ => cases h
  | binary op l r p =>
    cases e' with
    | binary op' l' r' p' =>
      obtain ⟨rfl, hl, hr, -⟩ := Expr.binary.inj h
      exact .binary op hl hr trivial
    | _ => cases h
  | unary op operand p =>
    cases e' with
    | unary op' operand' p' =>
      obtain ⟨rfl, hoperand, -⟩ := Expr.unary.inj h
      exact .unary op hoperand trivial
    | _ => cases h
  | ifThen c b r p =>
    cases e' with
    | ifThen c' b' r' p' =>
      obtain ⟨hc, hb, hr, -⟩ := Expr.ifThen.inj h
      exact .ifThen hc hb (likeChain_of_alike hr) trivial
    | _ => cases h
  | forTo var start stop step b p =>
    cases e' with
    | forTo var' start' stop' step' b' p' =>
      obtain ⟨rfl, hstart, hstop, hstep, hb, -⟩ := Expr.forTo.inj h
      exact .forTo var hstart hstop (likeStep_of_alike hstep) hb trivial
    | _ => cases h
  | whileDo c b p =>
    cases e' with
    | whileDo c' b' p' =>
      obtain ⟨hc, hb, -⟩ := Expr.whileDo.inj h
      exact .whileDo hc hb trivial
    | _ => cases h
  | function name params b p =>
    cases e' with
    | function name' params' b' p' =>
      obtain ⟨rfl, rfl, hb, -⟩ := Expr.function.inj h
      exact .function name params hb trivial
    | _ => cases h
  | call callee es p =>
    cases e' with
    | call callee' es' p' =>
      obtain ⟨hcallee, hes, -⟩ := Expr.call.inj h
      exact .call hcallee (forall₂_of_allAlike hes) trivial
    | _ => cases h

theorem likeBody_of_alike {b b' : Body} (h : b.Alike b') : LikeBody Expr.Alike b b' := by
  cases b with
  | inline e =>
    cases b' with
    | inline e' => exact .just .inline .inline (Body.inline.inj h)
    | block e' => cases h
  | block e =>
    cases b' with
    | inline e' => cases h
    | block e' => exact .block (Body.block.inj h)

/-- Code that is the same up to places. -/
def placeless : Likeness where
  place _ _ := True
  expr := Expr.Alike
  body := Body.Alike
  node := likeNode_of_alike
  layout := likeBody_of_alike

theorem placeless_likeMachine {m m' : Machine} (h : m.Same m') : placeless.LikeMachine m m' :=
  Likeness.likeMachine_of_same (fun _ => rfl) (fun _ => trivial) h

/-- How two programs end if only their layout differs: with values that are the same up to places in
the bodies of functions, or with faults of the same cause that went through scopes of the same
names. -/
inductive EndAlike : Outcome Error Value × Machine → Outcome Error Value × Machine → Prop
  | values {v v' : Value} {m m' : Machine} (like : placeless.LikeValue v v') :
    EndAlike (.value v, m) (.value v', m')
  | faults {f f' : Fault} {m m' : Machine} (cause : f'.cause = f.cause)
    (names : (f'.trail m'.scopes).map Prod.fst = (f.trail m.scopes).map Prod.fst) :
    EndAlike (.error (.fault f), m) (.error (.fault f'), m')

theorem endAlike_of_likeReply {reply reply' : Outcome Fault Value × Machine}
    (h : placeless.LikeReply placeless.LikeValue reply reply') :
    Log.printed reply'.2.log = Log.printed reply.2.log ∧
      EndAlike (reply.1.mapError .fault, reply.2) (reply'.1.mapError .fault, reply'.2) := by
  cases h with
  | value hv hm => exact ⟨hm.printed, .values hv⟩
  | @error f f' m m' hf hm =>
    refine ⟨hm.printed, .faults hf.cause ?_⟩
    have htrail := hf.trail hm
    generalize f.trail m.scopes = trail, f'.trail m'.scopes = trail' at htrail
    induction htrail with
    | nil => rfl
    | cons hx _ ih => rw [List.map_cons, List.map_cons, hx.1, ih]

/-- What is compared does not show the time. -/
theorem EndAlike.of_atInstant {reply reply' : Outcome Error Value × Machine} {clock : Instant}
    (h : EndAlike (reply.1, reply.2.atInstant clock) reply') : EndAlike reply reply' := by
  obtain ⟨outcome, m⟩ := reply
  cases h with
  | values like => exact .values like
  | faults cause names => exact .faults cause names

/-- A program that does not read `NOW` does the same whenever it is run. -/
theorem result_timeless {s : String} {ts : List Located} {tree : Expr} (hs : tokenize s = .ok ts)
    (htree : (parse ts).1 = .value tree) (havoids : tree.Avoids "NOW") (n : Nat)
    (clock clock' : Instant) :
    result n clock' s = ((result n clock s).1, (result n clock s).2.atInstant clock') := by
  obtain ⟨log, -, hrun⟩ := runIn_of_parse hs htree
  have hm : ((Machine.global clock).note log).Avoids "NOW" := Machine.avoids_global "NOW" clock
  have htimeless := eval_timeless n Machine.root havoids hm clock'
  rw [result, result, hrun, hrun, evaluate_apply, evaluate_apply]
  exact congrArg (fun reply => (reply.1.mapError Error.fault, reply.2)) htimeless

/-- Texts that are read alike run alike. -/
theorem result_alike {s s' : String} {ts ts' : List Located} {tree tree' : Expr}
    (hs : tokenize s = .ok ts) (hs' : tokenize s' = .ok ts') (htree : (parse ts).1 = .value tree)
    (htree' : (parse ts').1 = .value tree') (hlike : tree.Alike tree') (clock : Instant) :
    ((∃ n, (result n clock s).1 ≠ .exhausted) ↔ ∃ n, (result n clock s').1 ≠ .exhausted) ∧
    ∀ n n', (result n clock s).1 ≠ .exhausted → (result n' clock s').1 ≠ .exhausted →
      Log.printed (result n' clock s').2.log = Log.printed (result n clock s).2.log ∧
        EndAlike (result n clock s) (result n' clock s') := by
  -- both texts are run as their trees, on machines that differ in the log only
  obtain ⟨log, hlog, hrun⟩ := runIn_of_parse hs htree
  obtain ⟨log', hlog', hrun'⟩ := runIn_of_parse hs' htree'
  have hm := (hlog.same_note (.global clock)).symm.trans (hlog'.same_note (.global clock))
  have hexpr : placeless.expr tree tree' := hlike
  have hexpr' : placeless.expr tree' tree := hlike.symm
  simp only [result, hrun, hrun', evaluate_apply, mapError_ne_exhausted]
  refine ⟨⟨?_, ?_⟩, ?_⟩
  · rintro ⟨n, hends⟩
    exact Likeness.eval_ends_of_like hexpr (placeless_likeMachine hm) hends
  · rintro ⟨n, hends⟩
    exact Likeness.eval_ends_of_like hexpr' (placeless_likeMachine hm.symm) hends
  · intro n n' hends hends'
    exact endAlike_of_likeReply
      (Likeness.likeReply_eval hexpr (placeless_likeMachine hm) hends hends')

/-- **Layout and places are for messages only.** Take two texts whose tokens are the same up to their
places and the lengths of runs of separators. Both are programs, with the same tree up to places, or
both are refused with the same error up to its place. As programs, run at the same instant or, if
`NOW` is not read, at any two instants, both end or neither does, and if they end they have printed
the same lines and end alike. -/
theorem layout_does_not_matter {s s' : String} {ts ts' : List Located} (hs : tokenize s = .ok ts)
    (hs' : tokenize s' = .ok ts')
    (hsame : squeeze (ts'.map Located.token) = squeeze (ts.map Located.token)) :
    ReadAlike (parse ts).1 (parse ts').1 ∧
    ∀ tree, (parse ts).1 = .value tree →
      ∀ clock clock', clock' = clock ∨ tree.Avoids "NOW" →
        ((∃ n, (result n clock s).1 ≠ .exhausted) ↔ ∃ n, (result n clock' s').1 ≠ .exhausted) ∧
        ∀ n n', (result n clock s).1 ≠ .exhausted → (result n' clock' s').1 ≠ .exhausted →
          Log.printed (result n' clock' s').2.log = Log.printed (result n clock s).2.log ∧
            EndAlike (result n clock s) (result n' clock' s') := by
  have hread := parse_alike (endsOnce_of_tokenize hs).1 (endsOnce_of_tokenize hs').1
    (legible_of_tokenize hs) (legible_of_tokenize hs') hsame
  refine ⟨hread, ?_⟩
  intro tree htree clock clock' htime
  rw [htree] at hread
  generalize hother : (parse ts').1 = outcome at hread
  cases hread with
  | @value _ tree' hlike =>
    have hruns := result_alike hs hs' htree hother hlike clock'
    rcases htime with rfl | havoids
    · exact hruns
    · -- the first text may as well be run when the second one is
      simp only [result_timeless hs htree havoids _ clock clock'] at hruns
      obtain ⟨hends, halike⟩ := hruns
      refine ⟨hends, fun n n' hn hn' => ?_⟩
      obtain ⟨hprinted, hend⟩ := halike n n' hn hn'
      exact ⟨hprinted, hend.of_atInstant⟩

/-- The tokens of a conditional with a block. -/
def blockTokens : List Located :=
  [⟨.keyword .if_, ⟨0, 0, 0⟩⟩, ⟨.identifier "TRUE", ⟨3, 0, 3⟩⟩, ⟨.keyword .then_, ⟨8, 0, 8⟩⟩,
    ⟨.newline, ⟨12, 0, 12⟩⟩, ⟨.identifier "PRINT", ⟨13, 1, 0⟩⟩, ⟨.symbol .lparen, ⟨18, 1, 5⟩⟩,
    ⟨.str "a", ⟨19, 1, 6⟩⟩, ⟨.symbol .rparen, ⟨22, 1, 9⟩⟩, ⟨.newline, ⟨23, 1, 10⟩⟩,
    ⟨.keyword .end_, ⟨24, 2, 0⟩⟩, ⟨.eof, ⟨27, 2, 3⟩⟩]

/-- The same with more separators, of both kinds, and other columns. -/
def spacedTokens : List Located :=
  [⟨.keyword .if_, ⟨0, 0, 0⟩⟩, ⟨.identifier "TRUE", ⟨3, 0, 3⟩⟩, ⟨.keyword .then_, ⟨8, 0, 8⟩⟩,
    ⟨.newline, ⟨12, 0, 12⟩⟩, ⟨.newline, ⟨13, 0, 13⟩⟩, ⟨.identifier "PRINT", ⟨16, 1, 2⟩⟩,
    ⟨.symbol .lparen, ⟨21, 1, 7⟩⟩, ⟨.str "a", ⟨22, 1, 8⟩⟩, ⟨.symbol .rparen, ⟨25, 1, 11⟩⟩,
    ⟨.newline, ⟨26, 1, 12⟩⟩, ⟨.newline, ⟨27, 2, 0⟩⟩, ⟨.keyword .end_, ⟨28, 3, 0⟩⟩,
    ⟨.eof, ⟨31, 3, 3⟩⟩]

theorem spaced_block_prints_the_same :
    tokenize "IF TRUE THEN\nPRINT(\"a\")\nEND" = .ok blockTokens ∧
      tokenize "IF TRUE THEN⁋\n  PRINT(\"a\")\n\nEND" = .ok spacedTokens ∧
      (∃ tree, (parse spacedTokens).1 = .value tree) ∧
      ∃ n v, (result n ⟨0, 0⟩ "IF TRUE THEN⁋\n  PRINT(\"a\")\n\nEND").1 = .value v ∧
        Log.printed (result n ⟨0, 0⟩ "IF TRUE THEN⁋\n  PRINT(\"a\")\n\nEND").2.log = ["a"] := by
  have hblock : tokenize "IF TRUE THEN\nPRINT(\"a\")\nEND" = .ok blockTokens := by decide +kernel
  have hspaced : tokenize "IF TRUE THEN⁋\n  PRINT(\"a\")\n\nEND" = .ok spacedTokens := by
    decide +kernel
  obtain ⟨-, hruns⟩ := layout_does_not_matter hblock hspaced rfl
  have hvalue : (result 9 ⟨0, 0⟩ "IF TRUE THEN\nPRINT(\"a\")\nEND").1.casesOn
      (fun _ => true) (fun _ => false) false = true := by
    decide +kernel
  have hprinted : Log.printed (result 9 ⟨0, 0⟩ "IF TRUE THEN\nPRINT(\"a\")\nEND").2.log = ["a"] := by
    decide +kernel
  have hends : (result 9 ⟨0, 0⟩ "IF TRUE THEN\nPRINT(\"a\")\nEND").1 ≠ .exhausted := by
    intro hbound
    rw [hbound] at hvalue
    cases hvalue
  obtain ⟨halike, hboth⟩ := hruns _ rfl ⟨0, 0⟩ ⟨0, 0⟩ (.inl rfl)
  obtain ⟨n, hends'⟩ := halike.mp ⟨9, hends⟩
  obtain ⟨hlines, hend⟩ := hboth 9 n hends hends'
  refine ⟨hblock, hspaced, ⟨_, rfl⟩, n, ?_⟩
  generalize result 9 ⟨0, 0⟩ "IF TRUE THEN\nPRINT(\"a\")\nEND" = reply,
    result n ⟨0, 0⟩ "IF TRUE THEN⁋\n  PRINT(\"a\")\n\nEND" = reply' at *
  cases hend with
  | values hlike => exact ⟨_, rfl, hlines.trans hprinted⟩
  | faults => cases hvalue

end LineScript
