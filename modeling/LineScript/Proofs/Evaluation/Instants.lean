import LineScript.Proofs.Evaluation.BuiltIns

/-!
# Evaluations during which nobody asks for the time

Whether a program asks for the time shows when it runs: `NOW` may be called under another name, as an
element of a list, or by a function that was defined long before. What counts are the calls that are
made during the run.

  * `Job.Timeless j`: the job does the same at every instant.
  * `TimelessBy S run m`: started on the machine `m`, the computation does the same at every instant
    if the jobs `S` that it starts do.
  * `Job.timeless_of_no_now`: a job during which `NOW` is not called does the same at every instant.
  * `Job.Avoids j`: `NOW` is not read by the expression of the job, and on its machine `NOW` has no
    other name. During such a job `NOW` is not called.
  * `treeOf? source`: the tree of a program, if its text can be read.

**Key idea.** A part of the evaluator looks at the clock only where it calls `NOW` itself. So each
part passes on what the jobs that it starts do, and the rest is an induction on the bound.
-/

namespace LineScript

open Run Starting

/-! ### Jobs and parts of the evaluator -/

/-- The job does the same at every instant. -/
def Job.Timeless (j : Job) : Prop :=
  LineScript.Timeless (eval j.bound j.scope j.expr) j.machine

/-- On this machine, the computation does the same at every instant if the jobs that it starts do. -/
def TimelessBy {α : Type} (S : Starting) (run : Eval α) (m : Machine) : Prop :=
  (∀ j, S m j → j.Timeless) → Timeless run m

section parts

variable {α β : Type} {n : Nat} {scope : ScopeId} {S : Starting} {m : Machine}

/-- A computation that does not look at the clock and starts nothing. -/
theorem timelessBy_quiet {run : Eval α} (h : Timeless run m) : TimelessBy nothing run m :=
  fun _ => h

theorem timelessBy_pure (a : α) : TimelessBy nothing (pure a : Eval α) m :=
  timelessBy_quiet fun _ => rfl

theorem timelessBy_exhausted : TimelessBy nothing (exhausted : Eval α) m :=
  timelessBy_quiet fun _ => rfl

theorem timelessBy_raise (p : Position) (cause : Cause) :
    TimelessBy nothing (Eval.raise scope p cause : Eval α) m :=
  timelessBy_quiet fun _ => rfl

theorem timelessBy_lift (p : Position) (r : Except Cause α) :
    TimelessBy nothing (Eval.lift scope p r) m := by
  cases r with
  | ok a => exact timelessBy_pure a
  | error cause => exact timelessBy_raise p cause

theorem timelessBy_record (event : Event) : TimelessBy nothing (Eval.record event) m :=
  timelessBy_quiet fun _ => rfl

theorem timelessBy_bindName (name : String) (v : Value) :
    TimelessBy nothing (Eval.bindName scope name v) m :=
  timelessBy_quiet fun _ => rfl

theorem timelessBy_enter (name : String) (p : Position) (bindings : List (String × Value)) :
    TimelessBy nothing (Eval.enter scope name p bindings) m := by
  refine timelessBy_quiet fun clock => ?_
  show (Outcome.value m.scopes.size, ((m.enter scope name p).2.atInstant clock).setAll _ _) = _
  rw [setAll_atInstant]
  rfl

theorem timelessBy_one (inner : ScopeId) (e : Expr) :
    TimelessBy (one n inner e) (eval n inner e) m :=
  fun h => h _ rfl

theorem TimelessBy.bind {run : Eval α} {next : α → Eval β} {S' : α → Starting}
    (h : TimelessBy S run m)
    (hnext : ∀ a m₁, run m = (.value a, m₁) → TimelessBy (S' a) (next a) m₁) :
    TimelessBy (S.andThen run S') (run >>= next) m := by
  intro hjobs clock
  have hfirst := h (fun j hj => hjobs j (.inl hj)) clock
  rw [Run.bind_apply, Run.bind_apply, hfirst]
  rcases hrun : run m with ⟨a | fault | _, m₁⟩
  -- what follows starts later, and the jobs that it starts are among those of the whole
  · exact hnext a m₁ hrun (fun j hj => hjobs j (.inr ⟨a, m₁, hrun, hj⟩)) clock
  · rfl
  · rfl

/-- What comes after the computation starts nothing. -/
theorem TimelessBy.bind_last {run : Eval α} {next : α → Eval β} (h : TimelessBy S run m)
    (hnext : ∀ a m₁, TimelessBy nothing (next a) m₁) : TimelessBy S (run >>= next) m := by
  intro hjobs
  refine (h.bind fun a m₁ _ => hnext a m₁) ?_
  rintro j (hj | ⟨_, _, _, hno⟩)
  · exact hjobs j hj
  · exact hno.elim

theorem timelessBy_all (es : List Expr) :
    TimelessBy (startsAll n scope es) (Eval.all (eval n) scope es) m := by
  induction es generalizing m with
  | nil => exact timelessBy_pure _
  | cons e es ih =>
    refine (timelessBy_one scope e).bind fun v m₁ _ => ?_
    exact ih.bind_last fun vs _ => timelessBy_pure _

theorem timelessBy_condition (c : Expr) :
    TimelessBy (one n scope c) (Eval.condition (eval n) scope c) m :=
  (timelessBy_one scope c).bind_last fun _ _ => timelessBy_lift _ _

theorem timelessBy_bound (e : Expr) (operation : String) :
    TimelessBy (one n scope e) (Eval.bound (eval n) scope e operation) m :=
  (timelessBy_one scope e).bind_last fun _ _ => timelessBy_lift _ _

theorem timelessBy_body (inner : ScopeId) (b : Body) :
    TimelessBy (one n inner b.expr) (Eval.body (eval n) inner b) m :=
  (timelessBy_one inner b.expr).bind_last fun _ _ => timelessBy_pure _

theorem timelessBy_chain : ∀ (c : Chain) {m : Machine},
    TimelessBy (startsChain n scope c) (Eval.chain (eval n) scope c) m
  | .done, _ => timelessBy_pure _
  | .otherwise b, _ => timelessBy_body scope b
  | .elif c b rest, _ => by
    refine (timelessBy_condition c).bind fun holds m₁ _ => ?_
    cases holds with
    | true => exact timelessBy_body scope b
    | false => exact timelessBy_chain rest
termination_by structural c => c

theorem timelessBy_countFrom (var : String) (b : Body) (stop step : Float) (k : Nat) (i : Float)
    (done : List Value) :
    TimelessBy (startsCount n scope var b stop step k i)
      (Eval.countFrom (eval n) scope var b stop step k i done) m := by
  induction k generalizing i done m with
  | zero => exact timelessBy_exhausted
  | succ k ih =>
    rw [Eval.countFrom, startsCount]
    split
    · refine (timelessBy_bindName var _).bind fun _ m₁ _ => ?_
      refine (timelessBy_body scope b).bind fun v m₂ _ => ?_
      exact ih (i + step) (v :: done)
    · exact timelessBy_pure _

theorem timelessBy_forTo (var : String) (start stop : Expr) (step : Option Expr) (b : Body)
    (p : Position) :
    TimelessBy (startsFor n scope var start stop step b)
      (Eval.forTo (eval n) n scope var start stop step b p) m := by
  refine (timelessBy_bound start _).bind fun first m₁ _ => ?_
  refine (timelessBy_bound stop _).bind fun last m₂ _ => ?_
  -- with the step known, what remains are the iterations and an entry in the log
  have hrest (by_ : Float) (m₃ : Machine) :
      TimelessBy (startsCount n scope var b last by_ n first) (do
        let values ← Eval.countFrom (eval n) scope var b last by_ n first []
        Eval.record (.forRan var p values.length)
        pure (Value.list values)) m₃ := by
    refine (timelessBy_countFrom var b last by_ n first []).bind_last fun values m₄ => ?_
    exact (timelessBy_record _).bind_last fun _ _ => timelessBy_pure _
  cases step with
  | none => exact hrest 1 m₂
  | some e => exact (timelessBy_bound e _).bind fun by_ m₃ _ => hrest by_ m₃

theorem timelessBy_repeatWhile (c : Expr) (b : Body) (k : Nat) (done : List Value) :
    TimelessBy (startsWhile n scope c b k) (Eval.repeatWhile (eval n) scope c b k done) m := by
  induction k generalizing done m with
  | zero => exact timelessBy_exhausted
  | succ k ih =>
    refine (timelessBy_condition c).bind fun holds m₁ _ => ?_
    cases holds with
    | true => exact (timelessBy_body scope b).bind fun v m₂ _ => ih (v :: done)
    | false => exact timelessBy_pure _

/-- Of the built-in functions only `NOW` looks at the clock. -/
theorem timelessBy_callBuiltin {name : String} (hname : name ≠ "NOW") (vs : List Value)
    (p : Position) : TimelessBy nothing (Eval.callBuiltin scope name vs p) m := by
  unfold Eval.callBuiltin
  cases hb : Builtin.ofName? name with
  | none => exact timelessBy_raise p _
  | some b =>
    have hnow : b ≠ .now := Builtin.ne_now_of_ofName? hb hname
    have hlook (m : Machine) :
        TimelessBy nothing (Run.look fun m => b.apply m.clock vs : Eval _) m := by
      refine timelessBy_quiet fun clock => ?_
      rw [Run.look, Run.look, Builtin.apply_of_ne_now hnow m.clock]
    refine (timelessBy_lift p _).bind_last fun _ m₁ => ?_
    refine (hlook m₁).bind_last fun reply m₂ => ?_
    refine TimelessBy.bind_last (timelessBy_quiet fun clock => ?_) fun _ _ => timelessBy_lift p _
    rw [Run.modify, Run.modify, recordAll_atInstant]

theorem timelessBy_call {f : Value} (hf : f ≠ .builtIn "NOW") (vs : List Value) (p : Position) :
    TimelessBy (startsCall n scope f vs p) (Eval.call (eval n) scope f vs p) m := by
  cases f with
  | function f =>
    refine (timelessBy_lift p _).bind fun _ m₁ _ => ?_
    refine (timelessBy_record _).bind fun _ m₂ _ => ?_
    refine (timelessBy_enter _ p _).bind fun inner m₃ _ => ?_
    exact timelessBy_body inner f.body
  | builtIn name =>
    have hname : name ≠ "NOW" := fun heq => hf (by rw [heq])
    exact timelessBy_callBuiltin hname vs p
  | number | text | list => exact timelessBy_raise p _

/-- An expression that does not call `NOW` itself does the same at every instant, if the jobs that it
starts do. -/
theorem timelessBy_expr {e : Expr}
    (hnow : ∀ vs m₁, ¬ Job.CallsBuiltIn ⟨n + 1, scope, e, m⟩ "NOW" vs m₁) :
    TimelessBy (startsExpr n scope e) (evalOver (eval n) n scope e) m := by
  cases e with
  | number value p => exact timelessBy_pure _
  | text value p => exact timelessBy_pure _
  | list es p => exact (timelessBy_all es).bind_last fun _ _ => timelessBy_pure _
  | name name p =>
    have hlook : TimelessBy nothing (Run.look (·.lookup scope name) : Eval _) m :=
      timelessBy_quiet fun _ => rfl
    refine hlook.bind_last fun found m₁ => ?_
    cases found with
    | some v => exact timelessBy_pure v
    | none => exact timelessBy_raise p _
  | assign name value p =>
    refine (timelessBy_one scope value).bind_last fun v m₁ => ?_
    exact (timelessBy_bindName name v).bind_last fun _ _ => timelessBy_pure v
  | binary op l r p =>
    refine (timelessBy_one scope l).bind fun left m₁ _ => ?_
    exact (timelessBy_one scope r).bind_last fun _ _ => timelessBy_lift p _
  | unary op operand p =>
    exact (timelessBy_one scope operand).bind_last fun _ _ => timelessBy_lift p _
  | ifThen c b rest p => exact timelessBy_chain (.elif c b rest)
  | forTo var start stop step b p => exact timelessBy_forTo var start stop step b p
  | whileDo c b p =>
    refine (timelessBy_repeatWhile c b n []).bind_last fun values m₁ => ?_
    exact (timelessBy_record _).bind_last fun _ _ => timelessBy_pure _
  | function name params b p =>
    cases name with
    | some name => exact timelessBy_quiet fun _ => rfl
    | none => exact timelessBy_pure _
  | call callee es p =>
    refine (timelessBy_one scope callee).bind fun f m₁ hf => ?_
    refine (timelessBy_all es).bind fun vs m₂ hvs => ?_
    -- callee and arguments are known, so this would be a call of `NOW`
    have hcallee : f ≠ .builtIn "NOW" := by
      rintro rfl
      exact hnow vs m₂ (.intro hf hvs)
    exact timelessBy_call hcallee vs p

end parts

namespace Job

variable {j k : Job}

/-- A job during which `NOW` is not called does the same at every instant. -/
theorem timeless_of_no_now (j : Job)
    (hnow : ∀ k, j.During k → ∀ vs m, ¬ k.CallsBuiltIn "NOW" vs m) : j.Timeless := by
  obtain ⟨n, scope, e, m⟩ := j
  induction n generalizing scope e m with
  | zero => exact fun _ => rfl
  | succ n ih =>
    refine timelessBy_expr (hnow _ .refl) fun k hstarts => ?_
    have hk : Starts ⟨n + 1, scope, e, m⟩ k := ⟨n, rfl, hstarts⟩
    obtain ⟨bound, inner, e', m'⟩ := k
    obtain rfl : n = bound := Nat.succ.inj hk.bound_eq
    -- what happens during a job that is started happens during the whole
    exact ih inner e' m' fun l hl => hnow l (.head hk hl)

end Job

/-! ### Jobs that cannot get at `NOW` -/

/-- `NOW` is not read by the expression and has no other name on the machine. -/
structure Job.Avoids (j : Job) : Prop where
  /-- Nothing in the expression reads `NOW`. -/
  expr : j.expr.Avoids "NOW"
  /-- On the machine `NOW` can be called through its own name only. -/
  machine : j.machine.Avoids "NOW"

/-- On machines where `NOW` has no other name, only jobs that cannot get at it are started. -/
def Starting.Avoids (S : Starting) : Prop :=
  ∀ m, m.Avoids "NOW" → ∀ j, S m j → j.Avoids

section avoids

variable {α : Type} {n : Nat} {scope : ScopeId}

theorem avoids_nothing : nothing.Avoids :=
  fun _ _ _ => False.elim

theorem avoids_one {e : Expr} (he : e.Avoids "NOW") : (one n scope e).Avoids := by
  rintro m hm j rfl
  exact ⟨he, hm⟩

theorem Starting.Avoids.andThen {S : Starting} {run : Eval α} {next : α → Starting}
    {good : α → Prop} (h : S.Avoids) (hrun : Steady good run)
    (hnext : ∀ a, good a → (next a).Avoids) : (S.andThen run next).Avoids := by
  rintro m hm j (hj | ⟨a, m₁, hvalue, hj⟩)
  · exact h m hm j hj
  -- what came before leaves a machine on which `NOW` has no other name
  · obtain ⟨-, hm₁, hgood⟩ := hrun m hm
    rw [hvalue] at hm₁ hgood
    exact hnext a (hgood a rfl) m₁ hm₁ j hj

theorem avoids_all (es : List Expr) (hes : Expr.AllAvoid "NOW" es) :
    (startsAll n scope es).Avoids := by
  induction es with
  | nil => exact avoids_nothing
  | cons e es ih =>
    exact (avoids_one hes.1).andThen (eval_steady n scope e hes.1) fun _ _ => ih hes.2

theorem avoids_body {b : Body} (hb : b.Avoids "NOW") : (one n scope b.expr).Avoids :=
  avoids_one (Body.avoids_expr hb)

theorem avoids_chain : ∀ c : Chain, c.Avoids "NOW" → (startsChain n scope c).Avoids
  | .done, _ => avoids_nothing
  | .otherwise _, hb => avoids_body hb
  | .elif _ _ rest, hc => by
    refine (avoids_one hc.1).andThen (steady_condition (eval_steady n) hc.1) fun holds _ => ?_
    cases holds with
    | true => exact avoids_body hc.2.1
    | false => exact avoids_chain rest hc.2.2
termination_by structural c => c

theorem avoids_count (var : String) {b : Body} (hb : b.Avoids "NOW") (stop step : Float) (k : Nat)
    (i : Float) : (startsCount n scope var b stop step k i).Avoids := by
  induction k generalizing i with
  | zero => exact avoids_nothing
  | succ k ih =>
    rw [startsCount]
    split
    · refine avoids_nothing.andThen (steady_bindName var (.number i)) fun _ _ => ?_
      exact (avoids_body hb).andThen (steady_body (eval_steady n) hb) fun _ _ => ih (i + step)
    · exact avoids_nothing

theorem avoids_for (var : String) {start stop : Expr} {step : Option Expr} {b : Body}
    (hstart : start.Avoids "NOW") (hstop : stop.Avoids "NOW")
    (hstep : Expr.OptionAvoids "NOW" step) (hb : b.Avoids "NOW") :
    (startsFor n scope var start stop step b).Avoids := by
  refine (avoids_one hstart).andThen (steady_bound (eval_steady n) hstart _) fun first _ => ?_
  refine (avoids_one hstop).andThen (steady_bound (eval_steady n) hstop _) fun last _ => ?_
  cases step with
  | none => exact avoids_count var hb last 1 n first
  | some e =>
    exact (avoids_one hstep).andThen (steady_bound (eval_steady n) hstep _) fun by_ _ =>
      avoids_count var hb last by_ n first

theorem avoids_while {c : Expr} {b : Body} (hc : c.Avoids "NOW") (hb : b.Avoids "NOW") (k : Nat) :
    (startsWhile n scope c b k).Avoids := by
  induction k with
  | zero => exact avoids_nothing
  | succ k ih =>
    refine (avoids_one hc).andThen (steady_condition (eval_steady n) hc) fun holds _ => ?_
    cases holds with
    | true =>
      exact (avoids_body hb).andThen (steady_body (eval_steady n) hb) fun _ _ => ih
    | false => exact avoids_nothing

/-- A function that avoids `NOW` has a body that does, and the scope that is entered for it binds
nothing else. -/
theorem avoids_call {f : Value} (hf : f.Avoids "NOW") {vs : List Value}
    (hvs : ∀ v ∈ vs, v.Avoids "NOW") (p : Position) : (startsCall n scope f vs p).Avoids := by
  cases hf with
  | @function f hbody =>
    refine avoids_nothing.andThen (steady_lift_any p _) fun _ _ => ?_
    refine avoids_nothing.andThen (steady_record _) fun _ _ => ?_
    exact avoids_nothing.andThen (steady_enter _ p f.params hvs) fun _ _ => avoids_body hbody
  | number | text | list | builtIn => exact avoids_nothing

theorem avoids_expr {e : Expr} (he : e.Avoids "NOW") : (startsExpr n scope e).Avoids := by
  have hev : Evaluator.Steady (eval n) := eval_steady n
  cases e with
  | number | text | name | function => exact avoids_nothing
  | list es p => exact avoids_all es he
  | assign name value p => exact avoids_one he
  | binary op l r p =>
    exact (avoids_one he.1).andThen (hev scope l he.1) fun _ _ => avoids_one he.2
  | unary op operand p => exact avoids_one he
  | ifThen c b rest p => exact avoids_chain (.elif c b rest) he
  | forTo var start stop step b p => exact avoids_for var he.1 he.2.1 he.2.2.1 he.2.2.2
  | whileDo c b p => exact avoids_while he.1 he.2 n
  | call callee es p =>
    refine (avoids_one he.1).andThen (hev scope callee he.1) fun f hf => ?_
    exact (avoids_all es he.2).andThen (steady_all hev es he.2) fun vs hvs => avoids_call hf hvs p

end avoids

namespace Job

variable {j k : Job}

theorem During.avoids (h : j.During k) (hj : j.Avoids) : k.Avoids := by
  induction h with
  | refl => exact hj
  | tail _ hstarts ih =>
    obtain ⟨n, -, hstarts⟩ := hstarts
    exact avoids_expr ih.expr _ ih.machine _ hstarts

/-- During a job that cannot get at `NOW` it is not called. -/
theorem Avoids.no_now (hj : j.Avoids) (h : j.During k) (vs : List Value) (m : Machine) :
    ¬ k.CallsBuiltIn "NOW" vs m := by
  intro hcalls
  have hk := h.avoids hj
  cases hcalls with
  | @intro n scope callee es p m₀ m₁ _ _ _ hcallee _ =>
    -- the callee cannot have turned out to be `NOW`
    obtain ⟨-, -, hgood⟩ := eval_steady n scope callee hk.expr.1 m₀ hk.machine
    rw [hcallee] at hgood
    cases hgood _ rfl with
    | builtIn hname => exact hname rfl

end Job

/-! ### Programs -/

mutual

/-- Whether nothing in the expression reads the name is decided along the tree. -/
def Expr.decidableAvoids (x : String) : (e : Expr) → Decidable (e.Avoids x)
  | .number _ _ | .text _ _ => .isTrue trivial
  | .list es _ => Expr.decidableAllAvoid x es
  | .name name _ => inferInstanceAs (Decidable (name ≠ x))
  | .assign _ value _ => value.decidableAvoids x
  | .binary _ l r _ => @instDecidableAnd _ _ (l.decidableAvoids x) (r.decidableAvoids x)
  | .unary _ operand _ => operand.decidableAvoids x
  | .ifThen c b rest _ =>
    @instDecidableAnd _ _ (c.decidableAvoids x)
      (@instDecidableAnd _ _ (b.decidableAvoids x) (rest.decidableAvoids x))
  | .forTo _ start stop step b _ =>
    @instDecidableAnd _ _ (start.decidableAvoids x)
      (@instDecidableAnd _ _ (stop.decidableAvoids x)
        (@instDecidableAnd _ _ (Expr.decidableOptionAvoids x step) (b.decidableAvoids x)))
  | .whileDo c b _ => @instDecidableAnd _ _ (c.decidableAvoids x) (b.decidableAvoids x)
  | .function _ _ b _ => b.decidableAvoids x
  | .call callee es _ =>
    @instDecidableAnd _ _ (callee.decidableAvoids x) (Expr.decidableAllAvoid x es)
termination_by structural e => e

/-- The same for several expressions. -/
def Expr.decidableAllAvoid (x : String) : (es : List Expr) → Decidable (Expr.AllAvoid x es)
  | [] => .isTrue trivial
  | e :: es => @instDecidableAnd _ _ (e.decidableAvoids x) (Expr.decidableAllAvoid x es)
termination_by structural es => es

/-- The same for an expression that may be missing. -/
def Expr.decidableOptionAvoids (x : String) : (e : Option Expr) → Decidable (Expr.OptionAvoids x e)
  | none => .isTrue trivial
  | some e => e.decidableAvoids x
termination_by structural e => e

/-- The same for a body. -/
def Body.decidableAvoids (x : String) : (b : Body) → Decidable (b.Avoids x)
  | .inline e => e.decidableAvoids x
  | .block e => e.decidableAvoids x
termination_by structural b => b

/-- The same for the rest of a conditional. -/
def Chain.decidableAvoids (x : String) : (c : Chain) → Decidable (c.Avoids x)
  | .done => .isTrue trivial
  | .otherwise b => b.decidableAvoids x
  | .elif c b rest =>
    @instDecidableAnd _ _ (c.decidableAvoids x)
      (@instDecidableAnd _ _ (b.decidableAvoids x) (rest.decidableAvoids x))
termination_by structural c => c

end

instance (x : String) (e : Expr) : Decidable (e.Avoids x) :=
  e.decidableAvoids x

/-- The tree of a program, if its text can be read. -/
def treeOf? (source : String) : Option Expr :=
  match tokenize source with
  | .ok tokens =>
    match (parse tokens).1 with
    | .value tree => some tree
    | _ => none
  | .error _ => none

namespace Job.OfProgram

variable {n : Nat} {scope : ScopeId} {source : String} {m : Machine} {program j : Job}

/-- What is evaluated is the tree of the program. -/
theorem treeOf?_eq (h : Job.OfProgram n scope source m program) :
    treeOf? source = some program.expr := by
  cases h with
  | @intro tokens tree m₁ m₂ htokens htree =>
    have htokenize : tokenize source = .ok tokens := by
      unfold readTokens at htokens
      split at htokens
      · next found hfound =>
        cases htokens
        exact hfound
      · cases htokens
    have hparse : (parse tokens).1 = .value tree := by
      have hmap : (parse tokens).1.mapError Error.structural = .value tree := congrArg Prod.fst htree
      generalize (parse tokens).1 = outcome at hmap
      cases outcome with
      | value found =>
        cases hmap
        rfl
      | error | exhausted => cases hmap
    simp only [treeOf?, htokenize, hparse]

/-- A program that does not read `NOW`, on a machine where `NOW` has no other name, does not call
it. -/
theorem no_now (h : Job.OfProgram n scope source m program)
    (hsource : ∀ tree ∈ treeOf? source, tree.Avoids "NOW") (hm : m.Avoids "NOW")
    (hduring : program.During j) (vs : List Value) (m' : Machine) :
    ¬ j.CallsBuiltIn "NOW" vs m' := by
  refine Job.Avoids.no_now ⟨hsource _ h.treeOf?_eq, ?_⟩ hduring vs m'
  rw [Machine.Avoids, h.scopes_eq]
  exact hm

end Job.OfProgram

end LineScript
