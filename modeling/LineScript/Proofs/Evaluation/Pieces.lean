import Mathlib.Logic.Relation
import LineScript.Proofs.Evaluation.Simulation
import LineScript.Proofs.Grammar.EarliestError
import LineScript.Proofs.Grammar.Joining

/-!
# Programs in pieces

A program may be cut between two of its lines and run in two pieces, one after the other in the same
scope, as long as each piece is a program: the pieces do what the whole does.

  * `relocation program f`: code that is the same, or code of the program at the places that `f`
    gives.
  * `Machine.Same`: machines that differ only in what is logged besides the printed lines.
  * `Run.inTurn` is one computation after another.
  * `SameEnd`: how two programs in turn end, and how the two as one program end.

**Key idea.** The whole reads as the statements of the first piece and those of the second at other
places. Evaluation does not look at the log, so the first piece does exactly the same in the whole,
and it does not look at places except to report them, so the second piece does the same up to these.
-/

namespace LineScript

open Run

/-! ### Code at other places -/

/-- The conditions and bodies of the further cases. -/
def Chain.children : Chain → List Expr
  | .done => []
  | .otherwise b => [b.expr]
  | .elif c b r => c :: b.expr :: r.children

/-- The expressions that stand directly in an expression. -/
def Expr.children : Expr → List Expr
  | .number _ _ | .text _ _ | .name _ _ => []
  | .list es _ => es
  | .assign _ e _ => [e]
  | .binary _ l r _ => [l, r]
  | .unary _ e _ => [e]
  | .ifThen c b r _ => c :: b.expr :: r.children
  | .forTo _ start stop step b _ => start :: stop :: b.expr :: step.toList
  | .whileDo c b _ => [c, b.expr]
  | .function _ _ b _ => [b.expr]
  | .call callee es _ => callee :: es

/-- The expression is the program or stands somewhere in it. -/
def Expr.Within (program : Expr) : Expr → Prop :=
  Relation.ReflTransGen (fun e child => child ∈ e.children) program

section relocate

variable {place : Position → Position → Prop} {expr : Expr → Expr → Prop} {body : Body → Body → Prop}
  {f : Position → Position}

theorem forall₂_relocateAll {es : List Expr} (hexpr : ∀ e ∈ es, expr e (e.relocate f)) :
    List.Forall₂ expr es (Expr.relocateAll f es) := by
  induction es with
  | nil => exact .nil
  | cons e es ih =>
    obtain ⟨he, hes⟩ := List.forall_mem_cons.mp hexpr
    exact .cons he (ih hes)

theorem likeStep_relocate {step : Option Expr}
    (hexpr : ∀ e ∈ step.toList, expr e (e.relocate f)) :
    LikeStep expr step (Expr.relocateStep f step) := by
  cases step with
  | none => exact .none
  | some e => exact .some (hexpr e List.mem_cons_self)

theorem likeChain_relocate {chain : Chain} (hexpr : ∀ e ∈ chain.children, expr e (e.relocate f))
    (hbody : ∀ b : Body, b.expr ∈ chain.children → body b (b.relocate f)) :
    LikeChain expr body chain (chain.relocate f) := by
  cases chain with
  | done => exact .done
  | otherwise b => exact .otherwise (hbody b List.mem_cons_self)
  | elif c b r =>
    refine .elif (hexpr c List.mem_cons_self) (hbody b (by simp [Chain.children])) ?_
    exact likeChain_relocate (fun e he => hexpr e (by simp [Chain.children, he]))
      fun b hb => hbody b (by simp [Chain.children, hb])
termination_by structural chain

/-- An expression and the same at other places are nodes of the same kind. -/
theorem likeNode_relocate {e : Expr} (hplace : place e.position (f e.position))
    (hexpr : ∀ child ∈ e.children, expr child (child.relocate f))
    (hbody : ∀ b : Body, b.expr ∈ e.children → body b (b.relocate f)) :
    LikeNode place expr body e (e.relocate f) := by
  cases e with
  | number value p => exact .number value hplace
  | text value p => exact .text value hplace
  | list es p => exact .list (forall₂_relocateAll hexpr) hplace
  | name name p => exact .name name hplace
  | assign name e p => exact .assign name (hexpr e (by simp [Expr.children])) hplace
  | binary op l r p =>
    exact .binary op (hexpr l (by simp [Expr.children])) (hexpr r (by simp [Expr.children])) hplace
  | unary op e p => exact .unary op (hexpr e (by simp [Expr.children])) hplace
  | ifThen c b r p =>
    refine .ifThen (hexpr c (by simp [Expr.children])) (hbody b (by simp [Expr.children])) ?_ hplace
    exact likeChain_relocate (fun e he => hexpr e (by simp [Expr.children, he]))
      fun b hb => hbody b (by simp [Expr.children, hb])
  | forTo var start stop step b p =>
    refine .forTo var (hexpr start (by simp [Expr.children])) (hexpr stop (by simp [Expr.children]))
      ?_ (hbody b (by simp [Expr.children])) hplace
    exact likeStep_relocate fun e he => hexpr e (by simp_all [Expr.children])
  | whileDo c b p =>
    exact .whileDo (hexpr c (by simp [Expr.children])) (hbody b (by simp [Expr.children])) hplace
  | function name params b p =>
    exact .function name params (hbody b (by simp [Expr.children])) hplace
  | call callee es p =>
    refine .call (hexpr callee (by simp [Expr.children])) ?_ hplace
    exact forall₂_relocateAll fun e he => hexpr e (by simp [Expr.children, he])

theorem likeBody_relocate {b : Body} (hexpr : expr b.expr (b.expr.relocate f)) :
    LikeBody expr b (b.relocate f) := by
  cases b with
  | inline e => exact .just .inline .inline hexpr
  | block e => exact .block hexpr

end relocate

/-- Code that is the same, or code of the program at the places that `f` gives. -/
def relocation (program : Expr) (f : Position → Position) : Likeness where
  place p p' := p' = p ∨ ((∃ e, program.Within e ∧ e.position = p) ∧ p' = f p)
  expr e e' := e' = e ∨ (program.Within e ∧ e' = e.relocate f)
  body b b' := b' = b ∨ (program.Within b.expr ∧ b' = b.relocate f)
  node := by
    intro e e' h
    rcases h with rfl | ⟨hwithin, rfl⟩
    · nth_rewrite 2 [← e'.relocate_id]
      exact likeNode_relocate (.inl rfl) (fun e _ => .inl e.relocate_id)
        fun b _ => .inl b.relocate_id
    · exact likeNode_relocate (.inr ⟨⟨e, hwithin, rfl⟩, rfl⟩)
        (fun child hchild => .inr ⟨hwithin.tail hchild, rfl⟩)
        fun b hb => .inr ⟨hwithin.tail hb, rfl⟩
  layout := by
    intro b b' h
    rcases h with rfl | ⟨hwithin, rfl⟩
    · nth_rewrite 2 [← b'.relocate_id]
      exact likeBody_relocate (.inl (Expr.relocate_id _))
    · exact likeBody_relocate (.inr ⟨hwithin, rfl⟩)

/-! ### Machines that differ in the log only -/

/-- The same scopes, printed lines and instant. -/
structure Machine.Same (m m' : Machine) : Prop where
  /-- The scopes are the same. -/
  scopes : m'.scopes = m.scopes
  /-- The printed lines are the same. -/
  printed : Log.printed m'.log = Log.printed m.log
  /-- The instants are the same. -/
  clock : m'.clock = m.clock

namespace Machine.Same

variable {m m' m'' : Machine}

theorem symm (h : m.Same m') : m'.Same m :=
  ⟨h.scopes.symm, h.printed.symm, h.clock.symm⟩

theorem trans (h : m.Same m') (h' : m'.Same m'') : m.Same m'' :=
  ⟨h'.scopes.trans h.scopes, h'.printed.trans h.printed, h'.clock.trans h.clock⟩

end Machine.Same

/-- The machine with further entries in its log. -/
def Machine.note (m : Machine) (log : Log) : Machine :=
  { m with log := log ++ m.log }

/-- Entries that print nothing. -/
def Log.Silent (log : Log) : Prop :=
  ∀ event ∈ log, event.line? = none

theorem Log.Silent.same_note {log : Log} (h : log.Silent) (m : Machine) : m.Same (m.note log) := by
  have hnone : log.reverse.filterMap Event.line? = [] := by
    rw [List.filterMap_eq_nil_iff]
    intro event hevent
    exact h event (List.mem_reverse.mp hevent)
  refine ⟨rfl, ?_, rfl⟩
  simp only [Machine.note, Log.printed, Log.inOrder, List.reverse_append, List.filterMap_append,
    hnone, List.append_nil]

namespace Likeness

variable {K : Likeness} {m m' : Machine}

theorem likeMachine_of_same (hbody : ∀ b, K.body b b) (hplace : ∀ p, K.place p p)
    (h : m.Same m') : K.LikeMachine m m' := by
  refine ⟨?_, h.printed, h.clock⟩
  rw [h.scopes]
  exact (likeMachine_refl hbody hplace m).scopes

mutual

/-- Where like bodies are the same, like values are. -/
theorem eq_of_likeValue (hbody : ∀ {b b'}, K.body b b' → b' = b) :
    ∀ v v' : Value, K.LikeValue v v' → v' = v
  | .number _, _, h => by cases h; rfl
  | .text _, _, h => by cases h; rfl
  | .list vs, _, h => by
    cases h with
    | list hs => rw [eq_of_likeValues hbody vs _ hs]
  | .function f, _, h => by
    cases h with
    | @function _ f' hf =>
      obtain ⟨name, params, body, scope⟩ := f
      obtain ⟨name', params', body', scope'⟩ := f'
      obtain ⟨rfl, rfl, hb, rfl⟩ := hf
      rw [show body' = body from hbody hb]
  | .builtIn _, _, h => by cases h; rfl
termination_by structural v => v

theorem eq_of_likeValues (hbody : ∀ {b b'}, K.body b b' → b' = b) :
    ∀ vs vs' : List Value, List.Forall₂ K.LikeValue vs vs' → vs' = vs
  | [], _, h => by cases h; rfl
  | v :: vs, _, h => by
    cases h with
    | cons hv hvs => rw [eq_of_likeValue hbody v _ hv, eq_of_likeValues hbody vs _ hvs]
termination_by structural vs => vs

end

/-- Where like bodies and places are the same, like scopes are. -/
theorem eq_of_likeScope (hbody : ∀ {b b'}, K.body b b' → b' = b)
    (hplace : ∀ {p p'}, K.place p p' → p' = p) {s s' : Scope Frame Value} (h : K.LikeScope s s') :
    s' = s := by
  obtain ⟨⟨name, entry⟩, parent, bindings⟩ := s
  obtain ⟨⟨name', entry'⟩, parent', bindings'⟩ := s'
  obtain ⟨rfl, hentry, rfl, hbindings⟩ := h
  have hsame : entry' = entry := by
    cases hentry with
    | none => rfl
    | some hp => rw [hplace hp]
  have hbound : bindings = bindings' := by
    have heq := hbindings.imp fun x x' hx => Prod.ext hx.1.symm (eq_of_likeValue hbody _ _ hx.2).symm
    exact List.forall₂_eq_eq_eq ▸ heq
  rw [hsame, hbound]

/-- Where like bodies and places are the same, like machines are. -/
theorem same_of_likeMachine (hbody : ∀ {b b'}, K.body b b' → b' = b)
    (hplace : ∀ {p p'}, K.place p p' → p' = p) (h : K.LikeMachine m m') : m.Same m' := by
  refine ⟨?_, h.printed, h.clock⟩
  have hscopes : m'.scopes.scopes = m.scopes.scopes := by
    apply Array.ext_getElem?
    intro i
    have hi := h.scopes i
    generalize m.scopes.scopes[i]? = s, m'.scopes.scopes[i]? = s' at hi
    cases hi with
    | none => rfl
    | some hs => rw [eq_of_likeScope hbody hplace hs]
  rw [show m'.scopes = ⟨m'.scopes.scopes⟩ from rfl, hscopes]

end Likeness

/-! ### Evaluation -/

theorem relocation_likeMachine {program : Expr} {f : Position → Position} {m m' : Machine}
    (h : m.Same m') : (relocation program f).LikeMachine m m' :=
  Likeness.likeMachine_of_same (fun _ => .inl rfl) (fun _ => .inl rfl) h

/-- Evaluation does not look at the log. -/
theorem eval_of_same {n : Nat} {scope : ScopeId} {e : Expr} {m m' : Machine} (h : m.Same m')
    (hends : (eval n scope e m).1 ≠ .exhausted) :
    ∃ t, Tends (fun k => eval k scope e) m' ((eval n scope e m).1, t) ∧
      (eval n scope e m).2.Same t := by
  -- moving code by the identity leaves everything as it is
  have hexpr : (relocation e id).expr e e := .inl rfl
  have hbody : ∀ {b b' : Body}, (relocation e id).body b b' → b' = b := by
    intro b b' hb
    rcases hb with rfl | ⟨-, rfl⟩
    · rfl
    · exact b.relocate_id
  have hplace : ∀ {p p' : Position}, (relocation e id).place p p' → p' = p := by
    intro p p' hp
    rcases hp with rfl | ⟨-, rfl⟩ <;> rfl
  obtain ⟨reply, htends, hreply⟩ :=
    (Likeness.follows n hexpr m m' (relocation_likeMachine h)).resolve_left hends
  generalize eval n scope e m = left at hreply ⊢
  cases hreply with
  | @value v v' t t' hv ht =>
    obtain rfl := Likeness.eq_of_likeValue hbody v v' hv
    exact ⟨t', htends, Likeness.same_of_likeMachine hbody hplace ht⟩
  | @error g g' t t' hg ht =>
    obtain rfl := hg.eq hplace
    exact ⟨t', htends, Likeness.same_of_likeMachine hbody hplace ht⟩

/-- The elements of two lists. -/
def Value.join : Value → Value → Value
  | .list vs, .list ws => .list (vs ++ ws)
  | v, _ => v

theorem all_append (ev : Evaluator) (scope : ScopeId) (as bs : List Expr) :
    Eval.all ev scope (as ++ bs) =
      Eval.all ev scope as >>= fun vs => Eval.all ev scope bs >>= fun ws => pure (vs ++ ws) := by
  induction as with
  | nil =>
    funext m
    show Eval.all ev scope bs m = (Eval.all ev scope bs >>= fun ws => pure ws) m
    rw [Run.bind_apply]
    rcases Eval.all ev scope bs m with ⟨ws | e | _, t⟩ <;> rfl
  | cons e as ih =>
    funext m
    show (ev scope e >>= fun v => Eval.all ev scope (as ++ bs) >>= fun vs => pure (v :: vs)) m =
      ((ev scope e >>= fun v => Eval.all ev scope as >>= fun vs => pure (v :: vs)) >>= fun vs =>
        Eval.all ev scope bs >>= fun ws => pure (vs ++ ws)) m
    rw [ih]
    simp only [Run.bind_apply]
    rcases ev scope e m with ⟨v | e | _, t⟩
    · dsimp only
      rcases Eval.all ev scope as t with ⟨vs | e | _, t⟩
      · simp only [Run.pure_apply]
        rcases Eval.all ev scope bs t with ⟨ws | e | _, t⟩ <;> rfl
      · rfl
      · rfl
    · rfl
    · rfl

/-- A list is evaluated from its first to its last element. -/
theorem eval_list_append (n : Nat) (scope : ScopeId) (as bs : List Expr) (p q r : Position) :
    eval n scope (.list (as ++ bs) r) =
      eval n scope (.list as p) >>= fun v => eval n scope (.list bs q) >>= fun w =>
        pure (v.join w) := by
  cases n with
  | zero => rfl
  | succ n =>
    funext m
    show (Eval.all (eval n) scope (as ++ bs) >>= fun vs => pure (Value.list vs)) m =
      ((Eval.all (eval n) scope as >>= fun vs => pure (Value.list vs)) >>= fun v =>
        (Eval.all (eval n) scope bs >>= fun ws => pure (Value.list ws)) >>= fun w =>
          pure (v.join w)) m
    rw [all_append]
    simp only [Run.bind_apply]
    rcases Eval.all (eval n) scope as m with ⟨vs | e | _, t⟩
    · simp only [Run.pure_apply]
      rcases Eval.all (eval n) scope bs t with ⟨ws | e | _, t⟩ <;> rfl
    · rfl
    · rfl

theorem eval_list_value {n : Nat} {scope : ScopeId} {es : List Expr} {p : Position}
    {m t : Machine} {v : Value} (h : eval n scope (.list es p) m = (.value v, t)) :
    ∃ vs, v = .list vs := by
  cases n with
  | zero => cases h
  | succ n =>
    obtain ⟨vs, _, -, hvs⟩ := Run.bind_eq_value_iff.mp
      (show (Eval.all (eval n) scope es >>= fun vs => pure (Value.list vs)) m = (.value v, t) from h)
    cases hvs
    exact ⟨vs, rfl⟩

/-! ### Reading -/

/-- Reading a program prints nothing. -/
theorem silent_of_parse {tokens : List Located} {tree : Expr} (hend : EndsInput tokens)
    (hlegible : ∀ t ∈ tokens, t.token.Legible) (h : (parse tokens).1 = .value tree) :
    (parse tokens).2.log.Silent := by
  have hc := ended_ofTokens hend
  have hreach := hc.reaches_skipNewlines
  have hc₁ := hreach.ended hc
  have hlegible₁ : (Cursor.ofTokens tokens).skipNewlines.2.Legible := by
    refine hreach.legible ?_
    intro t ht
    exact hlegible t (List.mem_toArray.mp ht)
  have htwin : Twin (.ofTokens tokens) (.ofTokens tokens) := ⟨rfl, rfl, rfl, rfl⟩
  have htwin₁ := htwin.skipNewlines.2
  have hlog : (Cursor.ofTokens tokens).skipNewlines.2.log = [] := Cursor.log_skipNewlinesUpTo _ _
  unfold parse at h ⊢
  rw [Grammar.programOver_apply] at h ⊢
  generalize (Cursor.ofTokens tokens).skipNewlines.2 = c at *
  split at h
  · next hempty =>
    rw [if_pos hempty, hlog]
    intro event hevent
    cases hevent
  next hempty =>
  rw [if_neg hempty]
  have htally := (Grammar.agree_nested (Grammar.bound tokens.length)).statements c c hc₁ hlegible₁
    htwin₁
  generalize (Grammar.nested (Grammar.bound tokens.length)).statements c = reply at htally h ⊢
  generalize (Grammar.Predictive.nested (Grammar.bound tokens.length)).statements c = reply'
    at htally
  cases htally with
  | tally htally =>
    cases htally with
    | @value _ d d' twin reach log =>
      by_cases hended : d.peek = .eof
      · simp only [if_pos hended, log, hlog]
        intro event hevent
        rw [List.mem_singleton.mp hevent]
        rfl
      · simp only [if_neg hended] at h
        cases h
    | error => cases h
    | exhausted => cases h
  | @gaveUp _ e d d' reach reach' recorded opens log =>
    -- the statement that was given up is reported
    simp only [if_neg (Token.ne_eof_of_opensExpression opens)] at h
    cases h

/-- A program that can be read is run as its tree, after some entries in the log. -/
theorem runIn_of_parse {source : String} {tokens : List Located} {tree : Expr}
    (htokens : tokenize source = .ok tokens) (hparse : (parse tokens).1 = .value tree) :
    ∃ log : Log, log.Silent ∧
      ∀ n scope m, runIn n scope source m = evaluate n scope tree (m.note log) := by
  have hend : EndsInput tokens := (endsOnce_of_tokenize htokens).1
  have hsilent := silent_of_parse hend (legible_of_tokenize htokens) hparse
  refine ⟨.programReady tree :: ((parse tokens).2.log ++
    [.tokensReady tokens.length, .tokenized source.length tokens.length]), ?_, ?_⟩
  · intro event hevent
    simp only [List.mem_cons, List.mem_append, List.not_mem_nil, or_false] at hevent
    rcases hevent with rfl | hevent | rfl | rfl
    · rfl
    · exact hsilent event hevent
    · rfl
    · rfl
  · intro n scope m
    rcases hreply : parse tokens with ⟨outcome, c⟩
    rw [hreply] at hparse
    obtain rfl : outcome = .value tree := hparse
    simp only [runIn, Run.bind_apply, readTokens, htokens, Run.modify, readProgram, hreply,
      Outcome.mapError, Machine.record, Machine.note, List.cons_append, List.append_assoc,
      List.nil_append]

/-! ### One program after another -/

/-- Two computations one after the other, with both values. -/
def Run.inTurn {σ ε α : Type} (first second : Run σ ε α) : Run σ ε (α × α) := do
  let a ← first
  let b ← second
  pure (a, b)

section inTurn

variable {σ ε α : Type} {first second : Run σ ε α} {s t : σ}

theorem inTurn_of_value {a : α} (h : first s = (.value a, t)) :
    Run.inTurn first second s = ((second t).1.map (Prod.mk a), (second t).2) := by
  simp only [Run.inTurn, Run.bind_apply, h]
  rcases second t with ⟨b | e | _, u⟩ <;> rfl

theorem inTurn_of_error {e : ε} (h : first s = (.error e, t)) :
    Run.inTurn first second s = (.error e, t) := by
  simp only [Run.inTurn, Run.bind_apply, h]

theorem inTurn_of_exhausted (h : first s = (.exhausted, t)) :
    Run.inTurn first second s = (.exhausted, t) := by
  simp only [Run.inTurn, Run.bind_apply, h]

end inTurn

/-- How a program ends, how it ends together with a second one that is run after it, and how the two
as one program end. -/
inductive SameEnd (K : Likeness) : Outcome Error Value × Machine →
    Outcome Error (Value × Value) × Machine → Outcome Error Value × Machine → Prop
  /-- Both succeed: the whole gives the values of the first and then like values. -/
  | values {vs ws ws' : List Value} {m m₁ m₁' : Machine} (hvalues : List.Forall₂ K.LikeValue ws ws')
    (hmachine : K.LikeMachine m₁ m₁') :
    SameEnd K (.value (.list vs), m) (.value (.list vs, .list ws), m₁)
      (.value (.list (vs ++ ws')), m₁')
  /-- The first fails: the whole fails with the same error and leaves the same. -/
  | firstFails {e : Error} {m m' : Machine} (hmachine : m.Same m') :
    SameEnd K (.error e, m) (.error e, m) (.error e, m')
  /-- The second fails: the whole fails with a like fault. -/
  | secondFails {v : Value} {f f' : Fault} {m m₁ m₁' : Machine} (hfault : K.LikeFault f f')
    (hmachine : K.LikeMachine m₁ m₁') :
    SameEnd K (.value v, m) (.error (.fault f), m₁) (.error (.fault f'), m₁')

theorem SameEnd.ends {K : Likeness} {reply reply'' : Outcome Error Value × Machine}
    {reply' : Outcome Error (Value × Value) × Machine} (h : SameEnd K reply reply' reply'') :
    reply''.1 ≠ .exhausted := by
  cases h <;> exact nofun

section pieces

variable {as bs : List Expr} {p q : Position} {f : Position → Position} {scope : ScopeId}
  {m m₀ m' : Machine} {log : Log} {n : Nat} {first second : Run Machine Error Value}

theorem tends_list_append {reply : Outcome Fault Value × Machine} (r : Position)
    (h : Tends (fun k => eval k scope (.list as p) >>= fun v =>
      eval k scope (.list bs q) >>= fun w => pure (v.join w)) m reply) :
    Tends (fun k => eval k scope (.list (as ++ bs) r)) m reply :=
  h.congr 0 fun k _ => by rw [eval_list_append k scope as bs p q r]

theorem evaluate_of_eval {e : Expr} {o : Outcome Fault Value} {t : Machine}
    (h : eval n scope e m = (o, t)) : evaluate n scope e m = (o.mapError .fault, t) := by
  rw [evaluate_apply, h]

/-- Where two lists of statements end, evaluated one after the other, the list of all of them ends in
the same way. -/
theorem sameEnd_of_ends (hfirst : first m = evaluate n scope (.list as p) m₀)
    (hsecond : ∀ t, second t = evaluate n scope (.list bs q) (t.note log)) (hlog : log.Silent)
    (hm : m₀.Same m') (r : Position) (hends : (Run.inTurn first second m).1 ≠ .exhausted) :
    ∃ reply, Tends (fun k => eval k scope (.list (as ++ Expr.relocateAll f bs) r)) m' reply ∧
      SameEnd (relocation (.list bs q) f) (first m) (Run.inTurn first second m)
        (reply.1.mapError .fault, reply.2) := by
  rcases heval : eval n scope (.list as p) m₀ with ⟨v | e | _, t⟩ <;>
    rw [evaluate_of_eval heval] at hfirst
  · obtain ⟨t', htends, ht⟩ := eval_of_same hm (by rw [heval]; exact nofun)
    rw [heval] at htends ht
    obtain ⟨vs, rfl⟩ := eval_list_value heval
    rw [inTurn_of_value hfirst, hsecond t] at hends ⊢
    rw [hfirst]
    -- the second list starts on machines that differ in the log, and is moved
    have hexpr : (relocation (.list bs q) f).expr (.list bs q)
        (.list (Expr.relocateAll f bs) (f q)) := .inr ⟨.refl, rfl⟩
    have hmachine : (relocation (.list bs q) f).LikeMachine (t.note log) t' :=
      relocation_likeMachine ((hlog.same_note t).symm.trans ht)
    have hends' : (eval n scope (.list bs q) (t.note log)).1 ≠ .exhausted := by
      intro hbound
      rw [evaluate_apply, hbound] at hends
      exact hends rfl
    obtain ⟨reply, htends', hreply⟩ :=
      (Likeness.follows n hexpr (t.note log) t' hmachine).resolve_left hends'
    rcases heval' : eval n scope (.list bs q) (t.note log) with ⟨w | g | _, u⟩ <;>
      rw [heval'] at hreply <;> rw [evaluate_of_eval heval'] <;> cases hreply
    · next w' u' hw hu =>
      obtain ⟨ws, rfl⟩ := eval_list_value heval'
      cases hw with
      | list hws =>
        exact ⟨_, tends_list_append r (htends.bind (htends'.bind (.of_eq fun _ => rfl))),
          .values hws hu⟩
    · next g' u' hg hu =>
      exact ⟨_, tends_list_append r (htends.bind htends'.bind_error), .secondFails hg hu⟩
  · obtain ⟨t', htends, ht⟩ := eval_of_same hm (by rw [heval]; exact nofun)
    rw [heval] at htends ht
    rw [inTurn_of_error hfirst, hfirst]
    exact ⟨_, tends_list_append (q := f q) r htends.bind_error, .firstFails ht⟩
  · rw [inTurn_of_exhausted hfirst] at hends
    exact absurd rfl hends

/-- Where a list of statements ends, two parts of it end, evaluated one after the other. -/
theorem inTurn_ends_of_whole {first second : Nat → Run Machine Error Value} {k : Nat} {r : Position}
    (hfirst : ∀ n, first n m = evaluate n scope (.list as p) m₀)
    (hsecond : ∀ n t, second n t = evaluate n scope (.list bs q) (t.note log))
    (hlog : log.Silent) (hm : m₀.Same m')
    (hends : (eval k scope (.list (as ++ Expr.relocateAll f bs) r) m').1 ≠ .exhausted) :
    ∃ n, (Run.inTurn (first n) (second n) m).1 ≠ .exhausted := by
  rw [eval_list_append k scope as _ p (f q) r, Run.bind_apply] at hends
  rcases heval : eval k scope (.list as p) m' with ⟨v | e | _, t'⟩ <;> rw [heval] at hends
  · obtain ⟨t, ⟨least, hleast⟩, ht⟩ := eval_of_same hm.symm (by rw [heval]; exact nofun)
    rw [heval] at hleast ht
    have hexpr : (relocation (.list bs q) f).flip.expr (.list (Expr.relocateAll f bs) (f q))
        (.list bs q) := .inr ⟨.refl, rfl⟩
    have hmachine : (relocation (.list bs q) f).flip.LikeMachine t' (t.note log) :=
      Likeness.likeMachine_of_same (fun _ => .inl rfl) (fun _ => .inl rfl)
        (ht.trans (hlog.same_note t))
    have hends' : (eval k scope (.list (Expr.relocateAll f bs) (f q)) t').1 ≠ .exhausted := by
      intro hbound
      dsimp only at hends
      rw [Run.bind_apply] at hends
      rcases hr : eval k scope (.list (Expr.relocateAll f bs) (f q)) t' with ⟨w | e | _, u⟩ <;>
        rw [hr] at hbound hends <;> cases hbound
      exact hends rfl
    obtain ⟨l, hl⟩ := Likeness.eval_ends_of_like hexpr hmachine hends'
    refine ⟨max least l, ?_⟩
    have hvalue : eval (max least l) scope (.list as p) m₀ = (.value v, t) :=
      hleast _ (Nat.le_max_left _ _)
    have hlast := eval_prolongs (Nat.le_max_right least l) scope (.list bs q) (t.note log) hl
    rw [inTurn_of_value ((hfirst _).trans (evaluate_of_eval hvalue)), hsecond, evaluate_apply,
      hlast]
    rcases hr : eval l scope (.list bs q) (t.note log) with ⟨w | e | _, u⟩ <;> rw [hr] at hl
    · exact nofun
    · exact nofun
    · exact absurd rfl hl
  · obtain ⟨t, ⟨least, hleast⟩, -⟩ := eval_of_same hm.symm (by rw [heval]; exact nofun)
    rw [heval] at hleast
    have herror : eval least scope (.list as p) m₀ = (.error e, t) := hleast _ (Nat.le_refl _)
    refine ⟨least, ?_⟩
    rw [inTurn_of_error ((hfirst _).trans (evaluate_of_eval herror))]
    exact nofun
  · exact absurd rfl hends

end pieces

/-- **A program run in pieces is the program run whole.** If two texts are programs, running them one
after the other in a scope and running the one text in which the second stands on a line of its own
after the first, from the same machine, both end or both do not, and they end in the same way: with
the values of the first and then those of the second; with the error of the first, if this fails; or
else with the fault of the second. The same lines are printed and the same names are bound in all
scopes. What comes from the code of the second is compared up to the places where it now stands. -/
theorem runIn_pieces {a b : String} {ta tb : List Located} {treeA treeB : Expr}
    (ha : tokenize a = .ok ta) (hparseA : (parse ta).1 = .value treeA) (hb : tokenize b = .ok tb)
    (hparseB : (parse tb).1 = .value treeB) (scope : ScopeId) (m : Machine) :
    ((∃ n, (Run.inTurn (runIn n scope a) (runIn n scope b) m).1 ≠ .exhausted) ↔
      ∃ n, (runIn n scope (a ++ "\n" ++ b) m).1 ≠ .exhausted) ∧
    ∀ n n', (Run.inTurn (runIn n scope a) (runIn n scope b) m).1 ≠ .exhausted →
      (runIn n' scope (a ++ "\n" ++ b) m).1 ≠ .exhausted →
      SameEnd (relocation treeB (Position.start.advanceAll (a ++ "\n").toList).shift)
        (runIn n scope a m) (Run.inTurn (runIn n scope a) (runIn n scope b) m)
        (runIn n' scope (a ++ "\n" ++ b) m) := by
  have hendsA := endsOnce_of_tokenize ha
  have hendsB := (endsOnce_of_tokenize hb).1
  obtain ⟨as, p, rfl⟩ := exists_list_of_parse hendsA.1 hparseA
  obtain ⟨bs, q, rfl⟩ := exists_list_of_parse hendsB hparseB
  -- each text is run as its statements, the whole as those of both
  obtain ⟨r, hparse⟩ := parse_resume hendsA hendsB hparseA hparseB
    (Position.start.advanceAll (a ++ "\n").toList)
  obtain ⟨logA, hlogA, hrunA⟩ := runIn_of_parse ha hparseA
  obtain ⟨logB, hlogB, hrunB⟩ := runIn_of_parse hb hparseB
  obtain ⟨log, hlog, hrun⟩ := runIn_of_parse (tokenize_append_newline ha hb) hparse
  have hm : (m.note logA).Same (m.note log) := (hlogA.same_note m).symm.trans (hlog.same_note m)
  generalize (Position.start.advanceAll (a ++ "\n").toList).shift = f at *
  have hpieces (n : Nat) (hends : (Run.inTurn (runIn n scope a) (runIn n scope b) m).1 ≠ .exhausted) :=
    sameEnd_of_ends (f := f) (hrunA n scope m) (hrunB n scope) hlogB hm r hends
  refine ⟨⟨?_, ?_⟩, ?_⟩
  · rintro ⟨n, hends⟩
    obtain ⟨reply, ⟨least, hleast⟩, hsame⟩ := hpieces n hends
    refine ⟨least, ?_⟩
    rw [hrun, evaluate_of_eval (hleast least (Nat.le_refl _))]
    exact hsame.ends
  · rintro ⟨n, hends⟩
    rw [hrun, evaluate_apply, mapError_ne_exhausted] at hends
    exact inTurn_ends_of_whole (fun n => hrunA n scope m) (fun n => hrunB n scope) hlogB hm hends
  · intro n n' hends hends'
    obtain ⟨reply, htends, hsame⟩ := hpieces n hends
    rw [hrun, evaluate_apply, mapError_ne_exhausted] at hends'
    rw [hrun, evaluate_apply, Likeness.eval_eq_of_tends htends hends']
    exact hsame

/-- The tokens of `FUNCTION f(x) => PRINT(x)`. -/
def definitionTokens : List Located :=
  [⟨.keyword .function, ⟨0, 0, 0⟩⟩, ⟨.identifier "f", ⟨9, 0, 9⟩⟩, ⟨.symbol .lparen, ⟨10, 0, 10⟩⟩,
    ⟨.identifier "x", ⟨11, 0, 11⟩⟩, ⟨.symbol .rparen, ⟨12, 0, 12⟩⟩, ⟨.symbol .arrow, ⟨14, 0, 14⟩⟩,
    ⟨.identifier "PRINT", ⟨17, 0, 17⟩⟩, ⟨.symbol .lparen, ⟨22, 0, 22⟩⟩,
    ⟨.identifier "x", ⟨23, 0, 23⟩⟩, ⟨.symbol .rparen, ⟨24, 0, 24⟩⟩, ⟨.eof, ⟨25, 0, 25⟩⟩]

/-- The tokens of `VAR g = f` and, on the next line, `g("hi")`. -/
def callTokens : List Located :=
  [⟨.keyword .var, ⟨0, 0, 0⟩⟩, ⟨.identifier "g", ⟨4, 0, 4⟩⟩, ⟨.symbol .equals, ⟨6, 0, 6⟩⟩,
    ⟨.identifier "f", ⟨8, 0, 8⟩⟩, ⟨.newline, ⟨9, 0, 9⟩⟩, ⟨.identifier "g", ⟨10, 1, 0⟩⟩,
    ⟨.symbol .lparen, ⟨11, 1, 1⟩⟩, ⟨.str "hi", ⟨12, 1, 2⟩⟩, ⟨.symbol .rparen, ⟨16, 1, 6⟩⟩,
    ⟨.eof, ⟨17, 1, 7⟩⟩]

/-- A function that is defined in the first piece is called in the second, and in the whole. -/
theorem call_of_earlier_piece_prints :
    tokenize "FUNCTION f(x) => PRINT(x)" = .ok definitionTokens ∧
      tokenize "VAR g = f\ng(\"hi\")" = .ok callTokens ∧
      (∃ tree tree', (parse definitionTokens).1 = .value tree ∧
        (parse callTokens).1 = .value tree') ∧
      ∃ n v, (runIn n Machine.root ("FUNCTION f(x) => PRINT(x)" ++ "\n" ++
          "VAR g = f\ng(\"hi\")") (.global ⟨0, 0⟩)).1 = .value v ∧
        Log.printed (runIn n Machine.root ("FUNCTION f(x) => PRINT(x)" ++ "\n" ++
          "VAR g = f\ng(\"hi\")") (.global ⟨0, 0⟩)).2.log = ["hi"] := by
  have hdefinition : tokenize "FUNCTION f(x) => PRINT(x)" = .ok definitionTokens := by
    decide +kernel
  have hcall : tokenize "VAR g = f\ng(\"hi\")" = .ok callTokens := by decide +kernel
  refine ⟨hdefinition, hcall, ⟨_, _, rfl, rfl⟩, ?_⟩
  obtain ⟨hends, hsame⟩ := runIn_pieces hdefinition rfl hcall rfl Machine.root (.global ⟨0, 0⟩)
  have hvalue : (Run.inTurn (runIn 9 Machine.root "FUNCTION f(x) => PRINT(x)")
      (runIn 9 Machine.root "VAR g = f\ng(\"hi\")") (.global ⟨0, 0⟩)).1.casesOn
        (fun _ => true) (fun _ => false) false = true := by
    decide +kernel
  have hprinted : Log.printed (Run.inTurn (runIn 9 Machine.root "FUNCTION f(x) => PRINT(x)")
      (runIn 9 Machine.root "VAR g = f\ng(\"hi\")") (.global ⟨0, 0⟩)).2.log = ["hi"] := by
    decide +kernel
  have hpieces : (Run.inTurn (runIn 9 Machine.root "FUNCTION f(x) => PRINT(x)")
      (runIn 9 Machine.root "VAR g = f\ng(\"hi\")") (.global ⟨0, 0⟩)).1 ≠ .exhausted := by
    intro hbound
    rw [hbound] at hvalue
    cases hvalue
  obtain ⟨n, hwhole⟩ := hends.mp ⟨9, hpieces⟩
  have hend := hsame 9 n hpieces hwhole
  refine ⟨n, ?_⟩
  generalize runIn 9 Machine.root "FUNCTION f(x) => PRINT(x)" (.global ⟨0, 0⟩) = first,
    Run.inTurn (runIn 9 Machine.root "FUNCTION f(x) => PRINT(x)")
      (runIn 9 Machine.root "VAR g = f\ng(\"hi\")") (.global ⟨0, 0⟩) = both,
    runIn n Machine.root ("FUNCTION f(x) => PRINT(x)" ++ "\n" ++ "VAR g = f\ng(\"hi\")")
      (.global ⟨0, 0⟩) = whole at *
  cases hend with
  | values _ hmachine => exact ⟨_, rfl, hmachine.printed.trans hprinted⟩
  | firstFails => cases hvalue
  | secondFails => cases hvalue

end LineScript
