import LineScript.Proofs.Evaluation.Simulation

/-!
# Three ways to write the same program

Some constructs of the language can be written in two ways: an expression on the same line or in a
block of its own, further cases of a conditional in the chain or in a conditional inside `ELSE`, and
a counted loop without a step or with `STEP 1`. Which way is taken, at any number of places and also
inside functions, makes no difference to a run.

  * `Expr.Rewrites t t'`: some places of `t` are written the other way in `t'`.
  * `rewriting` is this relation as a likeness: functions are alike if their bodies differ in this
    way only.
-/

namespace LineScript

/-! ### Rewriting -/

mutual

/-- The second expression is the first, with any number of places rewritten. All that the first
expression holds keeps its place. -/
inductive Expr.Rewrites : Expr → Expr → Prop
  | number (value : Float) (p : Position) : Expr.Rewrites (.number value p) (.number value p)
  | text (value : String) (p : Position) : Expr.Rewrites (.text value p) (.text value p)
  | list {es es' : List Expr} (p : Position) (hes : Expr.RewritesAll es es') :
    Expr.Rewrites (.list es p) (.list es' p)
  | name (name : String) (p : Position) : Expr.Rewrites (.name name p) (.name name p)
  | assign {e e' : Expr} (name : String) (p : Position) (he : Expr.Rewrites e e') :
    Expr.Rewrites (.assign name e p) (.assign name e' p)
  | binary {l l' r r' : Expr} (op : BinaryOperator) (p : Position) (hl : Expr.Rewrites l l')
    (hr : Expr.Rewrites r r') : Expr.Rewrites (.binary op l r p) (.binary op l' r' p)
  | unary {e e' : Expr} (op : UnaryOperator) (p : Position) (he : Expr.Rewrites e e') :
    Expr.Rewrites (.unary op e p) (.unary op e' p)
  | ifThen {c c' : Expr} {b b' : Body} {r r' : Chain} (p : Position) (hc : Expr.Rewrites c c')
    (hb : Body.Rewrites b b') (hr : Chain.Rewrites r r') :
    Expr.Rewrites (.ifThen c b r p) (.ifThen c' b' r' p)
  | forTo {start start' stop stop' : Expr} {step step' : Option Expr} {b b' : Body} (var : String)
    (p : Position) (hstart : Expr.Rewrites start start') (hstop : Expr.Rewrites stop stop')
    (hstep : Expr.RewritesStep step step') (hb : Body.Rewrites b b') :
    Expr.Rewrites (.forTo var start stop step b p) (.forTo var start' stop' step' b' p)
  | whileDo {c c' : Expr} {b b' : Body} (p : Position) (hc : Expr.Rewrites c c')
    (hb : Body.Rewrites b b') : Expr.Rewrites (.whileDo c b p) (.whileDo c' b' p)
  | function {b b' : Body} (name : Option String) (params : List String) (p : Position)
    (hb : Body.Rewrites b b') :
    Expr.Rewrites (.function name params b p) (.function name params b' p)
  | call {f f' : Expr} {es es' : List Expr} (p : Position) (hf : Expr.Rewrites f f')
    (hes : Expr.RewritesAll es es') : Expr.Rewrites (.call f es p) (.call f' es' p)

/-- Expressions that are rewritten one by one. -/
inductive Expr.RewritesAll : List Expr → List Expr → Prop
  | nil : Expr.RewritesAll [] []
  | cons {e e' : Expr} {es es' : List Expr} (he : Expr.Rewrites e e')
    (hes : Expr.RewritesAll es es') : Expr.RewritesAll (e :: es) (e' :: es')

/-- Steps of a counted loop. -/
inductive Expr.RewritesStep : Option Expr → Option Expr → Prop
  | none : Expr.RewritesStep none none
  | some {e e' : Expr} (he : Expr.Rewrites e e') : Expr.RewritesStep (some e) (some e')
  /-- A missing step is written as the literal 1. -/
  | one (p : Position) : Expr.RewritesStep none (some (.number 1 p))

/-- Bodies. -/
inductive Body.Rewrites : Body → Body → Prop
  | inline {e e' : Expr} (he : Expr.Rewrites e e') : Body.Rewrites (.inline e) (.inline e')
  | block {e e' : Expr} (he : Expr.Rewrites e e') : Body.Rewrites (.block e) (.block e')
  /-- An expression on the same line becomes the only statement of a block. -/
  | toBlock {e e' : Expr} (p : Position) (he : Expr.Rewrites e e') :
    Body.Rewrites (.inline e) (.block (.list [e'] p))

/-- What follows a case of a conditional. -/
inductive Chain.Rewrites : Chain → Chain → Prop
  | done : Chain.Rewrites .done .done
  | otherwise {b b' : Body} (hb : Body.Rewrites b b') :
    Chain.Rewrites (.otherwise b) (.otherwise b')
  | elif {c c' : Expr} {b b' : Body} {r r' : Chain} (hc : Expr.Rewrites c c')
    (hb : Body.Rewrites b b') (hr : Chain.Rewrites r r') :
    Chain.Rewrites (.elif c b r) (.elif c' b' r')
  /-- Further cases become a conditional in the last branch, which may be rewritten in turn. -/
  | toElse {c : Expr} {b last : Body} {r : Chain} (p : Position)
    (hlast : Body.Rewrites (.inline (.ifThen c b r p)) last) :
    Chain.Rewrites (.elif c b r) (.otherwise last)

end

/-! ### Every program is a rewriting of itself -/

mutual

theorem Expr.rewrites_refl : ∀ e : Expr, e.Rewrites e
  | .number value p => .number value p
  | .text value p => .text value p
  | .list es p => .list p (Expr.rewritesAll_refl es)
  | .name name p => .name name p
  | .assign name e p => .assign name p e.rewrites_refl
  | .binary op l r p => .binary op p l.rewrites_refl r.rewrites_refl
  | .unary op e p => .unary op p e.rewrites_refl
  | .ifThen c b r p => .ifThen p c.rewrites_refl b.rewrites_refl r.rewrites_refl
  | .forTo var start stop step b p => .forTo var p start.rewrites_refl stop.rewrites_refl
      (Expr.rewritesStep_refl step) b.rewrites_refl
  | .whileDo c b p => .whileDo p c.rewrites_refl b.rewrites_refl
  | .function name params b p => .function name params p b.rewrites_refl
  | .call f es p => .call p f.rewrites_refl (Expr.rewritesAll_refl es)
termination_by structural e => e

theorem Expr.rewritesAll_refl : ∀ es : List Expr, Expr.RewritesAll es es
  | [] => .nil
  | e :: es => .cons e.rewrites_refl (Expr.rewritesAll_refl es)
termination_by structural es => es

theorem Expr.rewritesStep_refl : ∀ step : Option Expr, Expr.RewritesStep step step
  | none => .none
  | some e => .some e.rewrites_refl
termination_by structural step => step

theorem Body.rewrites_refl : ∀ b : Body, b.Rewrites b
  | .inline e => .inline e.rewrites_refl
  | .block e => .block e.rewrites_refl
termination_by structural b => b

theorem Chain.rewrites_refl : ∀ r : Chain, r.Rewrites r
  | .done => .done
  | .otherwise b => .otherwise b.rewrites_refl
  | .elif c b r => .elif c.rewrites_refl b.rewrites_refl r.rewrites_refl
termination_by structural r => r

end

/-! ### Rewriting as a likeness -/

theorem Expr.RewritesAll.forall₂ {es es' : List Expr} (h : Expr.RewritesAll es es') :
    List.Forall₂ Expr.Rewrites es es' := by
  induction es generalizing es' with
  | nil =>
    cases h
    exact .nil
  | cons e es ih =>
    cases h with
    | cons he hes => exact .cons he (ih hes)

theorem Expr.RewritesStep.like {step step' : Option Expr} (h : Expr.RewritesStep step step') :
    LikeStep Expr.Rewrites step step' := by
  cases h with
  | none => exact .none
  | some he => exact .some he
  | one p => exact .added p

theorem Body.Rewrites.like {b b' : Body} (h : b.Rewrites b') : LikeBody Expr.Rewrites b b' := by
  cases h with
  | inline he => exact .just .inline .inline he
  | block he => exact .block he
  | toBlock p he => exact .just .inline (.block p) he

theorem Chain.Rewrites.like {r r' : Chain} (h : r.Rewrites r') :
    LikeChain Expr.Rewrites Body.Rewrites r r' := by
  cases r with
  | done =>
    cases h
    exact .done
  | otherwise b =>
    cases h with
    | otherwise hb => exact .otherwise hb
  | elif c b r =>
    cases h with
    | elif hc hb hr => exact .elif hc hb hr.like
    | toElse p hlast =>
      -- the conditional in the last branch is inline, or has become a block
      cases hlast with
      | inline he =>
        cases he with
        | ifThen _ hc hb hr => exact .nested hc hb hr.like .inline
      | toBlock q he =>
        cases he with
        | ifThen _ hc hb hr => exact .nested hc hb hr.like (.block q)
termination_by structural r

/-- Rewritten expressions are alike. -/
def rewriting : Likeness where
  place := Eq
  expr := Expr.Rewrites
  body := Body.Rewrites
  layout := Body.Rewrites.like
  node h := by
    cases h with
    | number value p => exact .number value rfl
    | text value p => exact .text value rfl
    | list p hes => exact .list hes.forall₂ rfl
    | name name p => exact .name name rfl
    | assign name p he => exact .assign name he rfl
    | binary op p hl hr => exact .binary op hl hr rfl
    | unary op p he => exact .unary op he rfl
    | ifThen p hc hb hr => exact .ifThen hc hb hr.like rfl
    | forTo var p hstart hstop hstep hb => exact .forTo var hstart hstop hstep.like hb rfl
    | whileDo p hc hb => exact .whileDo hc hb rfl
    | function name params p hb => exact .function name params hb rfl
    | call p hf hes => exact .call hf hes.forall₂ rfl

/-- **The three ways are the same.** However many places of a program are rewritten, the program and
the rewritten one, run from the same machine, both end or both do not. If they end, they have
printed the same lines and leave the same scopes with the same bindings, and they give the same
value, where functions are compared up to the same rewriting of their bodies; or they fail with the
same cause, at the same place and through scopes of the same names. -/
theorem evaluate_rewritten {t t' : Expr} (h : t.Rewrites t') (scope : ScopeId) (m : Machine) :
    ((∃ n, (evaluate n scope t m).1 ≠ .exhausted) ↔
      ∃ n, (evaluate n scope t' m).1 ≠ .exhausted) ∧
    ∀ n n', (evaluate n scope t m).1 ≠ .exhausted → (evaluate n' scope t' m).1 ≠ .exhausted →
      rewriting.LikeMachine (evaluate n scope t m).2 (evaluate n' scope t' m).2 ∧
      ((∃ v v', (evaluate n scope t m).1 = .value v ∧ (evaluate n' scope t' m).1 = .value v' ∧
          rewriting.LikeValue v v') ∨
        ∃ f, (evaluate n scope t m).1 = .error (.fault f) ∧
          (evaluate n' scope t' m).1 = .error (.fault f) ∧
          f.trail (evaluate n' scope t' m).2.scopes = f.trail (evaluate n scope t m).2.scopes) := by
  have hmachine : rewriting.LikeMachine m m :=
    Likeness.likeMachine_refl Body.rewrites_refl (fun _ => rfl) m
  have hmachine' : rewriting.flip.LikeMachine m m :=
    Likeness.likeMachine_refl Body.rewrites_refl (fun _ => rfl) m
  have hexpr : rewriting.expr t t' := h
  have hexpr' : rewriting.flip.expr t' t := h
  simp only [evaluate_apply, mapError_ne_exhausted]
  refine ⟨⟨?_, ?_⟩, ?_⟩
  · rintro ⟨n, hends⟩
    exact Likeness.eval_ends_of_like hexpr hmachine hends
  · rintro ⟨n, hends⟩
    exact Likeness.eval_ends_of_like hexpr' hmachine' hends
  · intro n n' hends hends'
    have hreply := Likeness.likeReply_eval hexpr hmachine hends hends'
    generalize eval n scope t m = reply, eval n' scope t' m = reply' at hreply
    cases hreply with
    | value hv hm => exact ⟨hm, .inl ⟨_, _, rfl, rfl, hv⟩⟩
    | @error f f' m₁ m₁' hf hm =>
      obtain rfl : f' = f := hf.eq Eq.symm
      refine ⟨hm, .inr ⟨f', rfl, rfl, ?_⟩⟩
      have htrail := hf.trail hm
      have heq := htrail.imp fun x x' hx => Prod.ext hx.1.symm hx.2
      exact (List.forall₂_eq_eq_eq ▸ heq : _ = _).symm

/-- A function with a loop, and a conditional of two cases, written in one line each. -/
def shortProgram : Expr :=
  let p : Position := .start
  .list [.function (some "f") ["x"]
      (.inline (.forTo "i" (.number 0 p) (.number 2 p) none (.inline (.name "x" p)) p)) p,
    .ifThen (.text "" p) (.inline (.text "a" p))
      (.elif (.text "b" p) (.inline (.call (.name "PRINT" p) [.text "b" p] p))
        (.otherwise (.inline (.name "f" p)))) p] p

/-- The same with blocks, an explicit step and a conditional inside a branch. -/
def longProgram : Expr :=
  let p : Position := .start
  .list [.function (some "f") ["x"]
      (.block (.list [.forTo "i" (.number 0 p) (.number 2 p) (some (.number 1 p))
        (.block (.list [.name "x" p] p)) p] p)) p,
    .ifThen (.text "" p) (.inline (.text "a" p))
      (.otherwise (.block (.list [.ifThen (.text "b" p)
        (.inline (.call (.name "PRINT" p) [.text "b" p] p))
        (.otherwise (.inline (.name "f" p))) p] p))) p] p

theorem longProgram_prints_like_shortProgram :
    shortProgram.Rewrites longProgram ∧
      ∃ n v, (evaluate n Machine.root longProgram (.global ⟨0, 0⟩)).1 = .value v ∧
        Log.printed (evaluate n Machine.root longProgram (.global ⟨0, 0⟩)).2.log = ["b"] := by
  have hrewrites : shortProgram.Rewrites longProgram := by
    refine .list _ (.cons ?_ (.cons ?_ .nil))
    · refine .function _ _ _ (.toBlock _ (.forTo _ _ (.number _ _) (.number _ _) (.one _) ?_))
      exact .toBlock _ (.name _ _)
    · refine .ifThen _ (.text _ _) (.inline (.text _ _)) (.toElse .start (.toBlock _ ?_))
      exact Expr.rewrites_refl _
  obtain ⟨halike, hsame⟩ := evaluate_rewritten hrewrites Machine.root (.global ⟨0, 0⟩)
  have hends : (evaluate 9 Machine.root shortProgram (.global ⟨0, 0⟩)).1 ≠ .exhausted := nofun
  obtain ⟨n, hends'⟩ := halike.mp ⟨9, hends⟩
  obtain ⟨hmachine, ⟨v, v', -, hv', -⟩ | ⟨f, hf, -⟩⟩ := hsame 9 n hends hends'
  · refine ⟨hrewrites, n, v', hv', ?_⟩
    rw [hmachine.printed]
    rfl
  · cases hf

end LineScript
