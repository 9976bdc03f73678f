import LineScript.Program

/-!
# Finished evaluations

An evaluation that ends before its bound ends in the same way with every larger bound.

  * `Run.Prolongs run' run`: where `run` ends before its bound, `run'` does the same.
  * `eval_prolongs`: with a larger bound, evaluation prolongs evaluation. So the bound decides only
    whether an evaluation ends, never how.
-/

namespace LineScript

namespace Run

variable {σ ε α β : Type}

/-- Where `run` ends before its bound, `run'` ends in the same way. -/
def Prolongs (run' run : Run σ ε α) : Prop :=
  ∀ s, (run s).1 ≠ .exhausted → run' s = run s

theorem Prolongs.refl (run : Run σ ε α) : run.Prolongs run :=
  fun _ _ => rfl

theorem prolongs_exhausted (run : Run σ ε α) : run.Prolongs exhausted :=
  fun _ h => absurd rfl h

theorem Prolongs.bind {run run' : Run σ ε α} {next next' : α → Run σ ε β} (h : run'.Prolongs run)
    (hnext : ∀ a, (next' a).Prolongs (next a)) : (run' >>= next').Prolongs (run >>= next) := by
  intro s hends
  have hfirst : (run s).1 ≠ .exhausted := by
    intro hbound
    apply hends
    rw [bind_apply]
    rcases hr : run s with ⟨a | e | _, t⟩ <;> rw [hr] at hbound <;> cases hbound
  rw [bind_apply, h s hfirst]
  rw [bind_apply] at hends ⊢
  rcases hr : run s with ⟨a | e | _, t⟩ <;> rw [hr] at hends
  exact hnext a t hends

end Run

open Run

/-! ### The evaluator -/

/-- In every scope and for every expression, `ev'` prolongs `ev`. -/
def Evaluator.Prolongs (ev' ev : Evaluator) : Prop :=
  ∀ scope e, (ev' scope e).Prolongs (ev scope e)

section evaluator

variable {ev ev' : Evaluator} {scope : ScopeId}

theorem prolongs_all (hev : ev'.Prolongs ev) (es : List Expr) :
    (Eval.all ev' scope es).Prolongs (Eval.all ev scope es) := by
  induction es with
  | nil => exact .refl _
  | cons e es ih => exact (hev scope e).bind fun v => ih.bind fun vs => .refl _

theorem prolongs_condition (hev : ev'.Prolongs ev) (e : Expr) :
    (Eval.condition ev' scope e).Prolongs (Eval.condition ev scope e) :=
  (hev scope e).bind fun _ => .refl _

theorem prolongs_body (hev : ev'.Prolongs ev) (b : Body) :
    (Eval.body ev' scope b).Prolongs (Eval.body ev scope b) :=
  (hev scope b.expr).bind fun _ => .refl _

theorem prolongs_chain (hev : ev'.Prolongs ev) (c : Chain) :
    (Eval.chain ev' scope c).Prolongs (Eval.chain ev scope c) := by
  cases c with
  | done => exact .refl _
  | otherwise b => exact prolongs_body hev b
  | elif e b rest =>
    refine (prolongs_condition hev e).bind fun holds => ?_
    cases holds with
    | true => exact prolongs_body hev b
    | false => exact prolongs_chain hev rest

theorem prolongs_bound (hev : ev'.Prolongs ev) (e : Expr) (operation : String) :
    (Eval.bound ev' scope e operation).Prolongs (Eval.bound ev scope e operation) :=
  (hev scope e).bind fun _ => .refl _

theorem prolongs_countFrom (hev : ev'.Prolongs ev) (var : String) (b : Body) (stop step : Float)
    {n n' : Nat} (hle : n ≤ n') (i : Float) (done : List Value) :
    (Eval.countFrom ev' scope var b stop step n' i done).Prolongs
      (Eval.countFrom ev scope var b stop step n i done) := by
  induction n generalizing n' i done with
  | zero => exact prolongs_exhausted _
  | succ n ih =>
    obtain ⟨n', rfl⟩ : ∃ k, n' = k + 1 := ⟨n' - 1, by omega⟩
    rw [Eval.countFrom, Eval.countFrom]
    split
    · refine (Prolongs.refl _).bind fun _ => (prolongs_body hev b).bind fun v => ?_
      exact ih (Nat.le_of_succ_le_succ hle) _ _
    · exact .refl _

theorem prolongs_forTo (hev : ev'.Prolongs ev) {n n' : Nat} (hle : n ≤ n') (var : String)
    (start stop : Expr) (step : Option Expr) (b : Body) (p : Position) :
    (Eval.forTo ev' n' scope var start stop step b p).Prolongs
      (Eval.forTo ev n scope var start stop step b p) := by
  refine (prolongs_bound hev start _).bind fun first => ?_
  refine (prolongs_bound hev stop _).bind fun last => ?_
  cases step with
  | some e =>
    refine (prolongs_bound hev e _).bind fun by_ => ?_
    exact (prolongs_countFrom hev var b last by_ hle first []).bind fun _ => .refl _
  | none =>
    refine (Prolongs.refl _).bind fun by_ => ?_
    exact (prolongs_countFrom hev var b last by_ hle first []).bind fun _ => .refl _

theorem prolongs_repeatWhile (hev : ev'.Prolongs ev) (c : Expr) (b : Body) {n n' : Nat}
    (hle : n ≤ n') (done : List Value) :
    (Eval.repeatWhile ev' scope c b n' done).Prolongs (Eval.repeatWhile ev scope c b n done) := by
  induction n generalizing n' done with
  | zero => exact prolongs_exhausted _
  | succ n ih =>
    obtain ⟨n', rfl⟩ : ∃ k, n' = k + 1 := ⟨n' - 1, by omega⟩
    refine (prolongs_condition hev c).bind fun holds => ?_
    cases holds with
    | true =>
      exact (prolongs_body hev b).bind fun v => ih (Nat.le_of_succ_le_succ hle) _
    | false => exact .refl _

theorem prolongs_call (hev : ev'.Prolongs ev) (callee : Value) (arguments : List Value)
    (p : Position) :
    (Eval.call ev' scope callee arguments p).Prolongs (Eval.call ev scope callee arguments p) := by
  cases callee with
  | function f =>
    refine (Prolongs.refl _).bind fun _ => (Prolongs.refl _).bind fun _ => ?_
    exact (Prolongs.refl _).bind fun scope => prolongs_body hev f.body
  | _ => exact .refl _

end evaluator

theorem evalOver_prolongs {ev ev' : Evaluator} (hev : ev'.Prolongs ev) {n n' : Nat} (hle : n ≤ n') :
    Evaluator.Prolongs (evalOver ev' n') (evalOver ev n) := by
  intro scope e
  cases e with
  | number value p => exact .refl _
  | text value p => exact .refl _
  | name name p => exact .refl _
  | list elements p => exact (prolongs_all hev elements).bind fun _ => .refl _
  | assign name value p => exact (hev scope value).bind fun _ => .refl _
  | binary op left right p =>
    exact (hev scope left).bind fun l => (hev scope right).bind fun r => .refl _
  | unary op operand p => exact (hev scope operand).bind fun _ => .refl _
  | ifThen condition body rest p => exact prolongs_chain hev (.elif condition body rest)
  | forTo var start stop step body p => exact prolongs_forTo hev hle var start stop step body p
  | whileDo condition body p =>
    exact (prolongs_repeatWhile hev condition body hle []).bind fun _ => .refl _
  | function name params body p => exact .refl _
  | call callee arguments p =>
    refine (hev scope callee).bind fun f => (prolongs_all hev arguments).bind fun vs => ?_
    exact prolongs_call hev f vs p

/-- With a larger bound, a finished evaluation ends in the same way. -/
theorem eval_prolongs {n n' : Nat} (hle : n ≤ n') : Evaluator.Prolongs (eval n') (eval n) := by
  induction n generalizing n' with
  | zero => exact fun _ _ => prolongs_exhausted _
  | succ n ih =>
    obtain ⟨n', rfl⟩ : ∃ k, n' = k + 1 := ⟨n' - 1, by omega⟩
    have hle' : n ≤ n' := Nat.le_of_succ_le_succ hle
    exact evalOver_prolongs (ih hle') hle'

/-! ### Whole programs -/

theorem evaluate_apply (n : Nat) (scope : ScopeId) (program : Expr) (m : Machine) :
    evaluate n scope program m =
      ((eval n scope program m).1.mapError .fault, (eval n scope program m).2) := rfl

theorem mapError_ne_exhausted {ε δ α : Type} {f : ε → δ} {o : Outcome ε α} :
    o.mapError f ≠ .exhausted ↔ o ≠ .exhausted := by
  cases o <;> simp [Outcome.mapError]

end LineScript
