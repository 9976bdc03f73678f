import LineScript.Proofs.Evaluation.Frame
import LineScript.Proofs.Evaluation.Uniform

/-!
# Evaluations that do not ask for the time

Only `NOW` tells what time it is. A program that never reads this name does the same whenever it is
run.

  * `Timeless run m`: started on the machine `m`, the computation does the same at every instant.
  * `Expr.Avoids x e`: nothing in the expression reads the name `x`, not even inside a function.
  * `Value.Avoids x v`: the value is not the built-in function `x` and no function that reads `x`,
    and there is none in it.
  * `Machine.Avoids x m`: whatever does not avoid `x` is bound to the name `x` itself.
  * `Steady good run`: on machines that avoid `NOW` the computation is timeless, leaves a machine
    that avoids it, and gives only good results.

**Key idea.** A built-in function is a value like any other, so it could be called under another name
or as an element of a list. But to get there it must have been read under its own name at first.
-/

namespace LineScript

open Run

/-! ### Instants -/

/-- The machine at another instant. -/
def Machine.atInstant (m : Machine) (clock : Instant) : Machine :=
  { m with clock := clock }

/-- Started on this machine, the computation does the same at every instant. -/
def Timeless {α : Type} (run : Eval α) (m : Machine) : Prop :=
  ∀ clock, run (m.atInstant clock) = ((run m).1, (run m).2.atInstant clock)

/-! ### What avoids a name -/

mutual

/-- Nothing in the expression reads the name. -/
def Expr.Avoids (x : String) : Expr → Prop
  | .number _ _ | .text _ _ => True
  | .list elements _ => Expr.AllAvoid x elements
  | .name name _ => name ≠ x
  | .assign _ value _ => value.Avoids x
  | .binary _ left right _ => left.Avoids x ∧ right.Avoids x
  | .unary _ operand _ => operand.Avoids x
  | .ifThen condition body rest _ => condition.Avoids x ∧ body.Avoids x ∧ rest.Avoids x
  | .forTo _ start stop step body _ =>
    start.Avoids x ∧ stop.Avoids x ∧ Expr.OptionAvoids x step ∧ body.Avoids x
  | .whileDo condition body _ => condition.Avoids x ∧ body.Avoids x
  | .function _ _ body _ => body.Avoids x
  | .call callee arguments _ => callee.Avoids x ∧ Expr.AllAvoid x arguments
termination_by structural e => e

/-- Nothing in several expressions reads the name. -/
def Expr.AllAvoid (x : String) : List Expr → Prop
  | [] => True
  | e :: es => e.Avoids x ∧ Expr.AllAvoid x es
termination_by structural es => es

/-- Nothing in an expression that may be missing reads the name. -/
def Expr.OptionAvoids (x : String) : Option Expr → Prop
  | none => True
  | some e => e.Avoids x
termination_by structural e => e

/-- Nothing in the body reads the name. -/
def Body.Avoids (x : String) : Body → Prop
  | .inline e => e.Avoids x
  | .block e => e.Avoids x
termination_by structural b => b

/-- Nothing in the rest of a conditional reads the name. -/
def Chain.Avoids (x : String) : Chain → Prop
  | .done => True
  | .otherwise body => body.Avoids x
  | .elif condition body rest => condition.Avoids x ∧ body.Avoids x ∧ rest.Avoids x
termination_by structural c => c

end

/-- The built-in function `x` cannot be called through the value. -/
inductive Value.Avoids (x : String) : Value → Prop
  | number (a : Float) : Avoids x (.number a)
  | text (s : String) : Avoids x (.text s)
  | list {vs : List Value} (h : ∀ v ∈ vs, Avoids x v) : Avoids x (.list vs)
  | function {f : Closure} (h : f.body.Avoids x) : Avoids x (.function f)
  | builtIn {name : String} (h : name ≠ x) : Avoids x (.builtIn name)

/-- The built-in function `x` can be called through the name `x` only. -/
def Machine.Avoids (x : String) (m : Machine) : Prop :=
  ∀ scope name v, m.scopes.own? scope name = some v → name ≠ x → v.Avoids x

variable {x : String} {m : Machine}

theorem Body.avoids_expr {b : Body} (h : b.Avoids x) : b.expr.Avoids x := by
  cases b with
  | inline e => exact h
  | block e => exact h

theorem forall₂_avoids_iff {vs vs' : List Value} :
    List.Forall₂ (fun v v' => v' = v ∧ v.Avoids x) vs vs' ↔ vs' = vs ∧ ∀ v ∈ vs, v.Avoids x := by
  constructor
  · intro h
    induction h with
    | nil => exact ⟨rfl, nofun⟩
    | cons hv _ ih =>
      obtain ⟨rfl, hv⟩ := hv
      obtain ⟨rfl, hvs⟩ := ih
      exact ⟨rfl, List.forall_mem_cons.mpr ⟨hv, hvs⟩⟩
  · rintro ⟨rfl, h⟩
    exact List.forall₂_same.mpr fun v hv => ⟨rfl, h v hv⟩

/-- Operators and built-in functions make no functions. -/
theorem uniform_avoids (x : String) : Uniform (fun v v' : Value => v' = v ∧ v.Avoids x) where
  layer := by
    rintro v _ ⟨rfl, h⟩
    cases h with
    | number a => exact .number a
    | text s => exact .text s
    | list h => exact .list (forall₂_avoids_iff.mpr ⟨rfl, h⟩)
    | function _ => exact .function rfl
    | builtIn _ => exact .builtIn _
  number a := ⟨rfl, .number a⟩
  text s := ⟨rfl, .text s⟩
  list h := by
    obtain ⟨rfl, h⟩ := forall₂_avoids_iff.mp h
    exact ⟨rfl, .list h⟩

/-- A result avoids the name if there is one. -/
def Avoiding (x : String) (r : Except Cause Value) : Prop :=
  ∀ v, r = .ok v → v.Avoids x

theorem avoiding_of_like {r r' : Except Cause Value}
    (h : LikeResult (fun v v' => v' = v ∧ v.Avoids x) r r') : Avoiding x r := by
  rintro v rfl
  cases h with
  | ok h => exact h.2

namespace Machine

theorem Avoids.lookup (h : m.Avoids x) {scope : ScopeId} {name : String} {v : Value}
    (hv : m.lookup scope name = some v) (hname : name ≠ x) : v.Avoids x := by
  rw [Machine.lookup, Forest.lookup, Forest.lookupUpTo_eq_findSome?] at hv
  obtain ⟨i, -, hown⟩ := List.exists_of_findSome?_eq_some hv
  exact h i name v hown hname

theorem Avoids.set (h : m.Avoids x) (scope : ScopeId) {name : String} {v : Value}
    (hv : name ≠ x → v.Avoids x) : (m.set scope name v).Avoids x := by
  intro i other w hw hother
  rw [Machine.set, Forest.own?_set] at hw
  split at hw
  -- the name that is bound now: the new value counts unless the name is `x`
  · next heq =>
    cases hw
    exact hv (heq.2.2 ▸ hother)
  · exact h i other w hw hother

theorem Avoids.setAll (h : m.Avoids x) (scope : ScopeId) (bindings : List (String × Value))
    (hvs : ∀ binding ∈ bindings, binding.1 ≠ x → binding.2.Avoids x) :
    (m.setAll scope bindings).Avoids x := by
  induction bindings generalizing m with
  | nil => exact h
  | cons binding bindings ih =>
    obtain ⟨hv, hvs⟩ := List.forall_mem_cons.mp hvs
    exact ih (h.set scope hv) hvs

theorem Avoids.enter (h : m.Avoids x) (parent : ScopeId) (name : String) (entry : Position) :
    (m.enter parent name entry).2.Avoids x := by
  intro i other w hw hother
  rw [Machine.enter, Forest.own?_add] at hw
  exact h i other w hw hother

/-- At the start of a program every built-in function is bound to its own name only. -/
theorem avoids_global (x : String) (clock : Instant) : (global clock).Avoids x := by
  -- the scope is empty at first
  have hroot : ((empty clock).addRoot programName).2.Avoids x := by
    intro i name v hv _
    rw [Machine.addRoot, Forest.own?_add] at hv
    cases hv
  refine hroot.setAll 0 globals ?_
  rintro ⟨name, v⟩ hmem hname
  -- the constants are numbers, and the built-in functions are bound to their names
  rcases List.mem_append.mp hmem with hmem | hmem
  · simp only [List.mem_cons, Prod.mk.injEq, List.not_mem_nil, or_false] at hmem
    rcases hmem with ⟨-, rfl⟩ | ⟨-, rfl⟩ | ⟨-, rfl⟩
    · exact .number _
    · exact .number _
    · exact .number _
  · obtain ⟨b, -, ⟨⟩⟩ := List.mem_map.mp hmem
    exact .builtIn hname

end Machine

/-! ### Steady computations -/

/-- On machines that avoid `NOW`, the computation does the same at every instant. The machine that it
leaves avoids `NOW` again, and its results are good. -/
def Steady {α : Type} (good : α → Prop) (run : Eval α) : Prop :=
  ∀ m : Machine, m.Avoids "NOW" →
    Timeless run m ∧ (run m).2.Avoids "NOW" ∧ ∀ a, (run m).1 = .value a → good a

section computations

variable {α β : Type} {good : α → Prop} {good' : β → Prop} {scope : ScopeId}

theorem steady_pure {a : α} (h : good a) : Steady good (pure a : Eval α) := by
  refine fun m hm => ⟨fun _ => rfl, hm, ?_⟩
  rintro _ ⟨⟩
  exact h

theorem steady_exhausted : Steady good (exhausted : Eval α) :=
  fun _ hm => ⟨fun _ => rfl, hm, nofun⟩

theorem steady_raise (p : Position) (cause : Cause) :
    Steady good (Eval.raise scope p cause : Eval α) :=
  fun _ hm => ⟨fun _ => rfl, hm, nofun⟩

theorem steady_lift (p : Position) {r : Except Cause α} (h : ∀ a, r = .ok a → good a) :
    Steady good (Eval.lift scope p r) := by
  cases r with
  | ok a => exact steady_pure (h a rfl)
  | error cause => exact steady_raise p cause

theorem steady_lift_any (p : Position) (r : Except Cause α) :
    Steady (fun _ => True) (Eval.lift scope p r) :=
  steady_lift p fun _ _ => trivial

/-- Something that is seen alike at every instant. -/
theorem steady_look {f : Machine → α} (hf : ∀ m clock, f (m.atInstant clock) = f m)
    (h : ∀ m, m.Avoids "NOW" → good (f m)) : Steady good (Run.look f : Eval α) := by
  refine fun m hm => ⟨fun clock => ?_, hm, ?_⟩
  · rw [Run.look, Run.look, hf m clock]
  · rintro _ ⟨⟩
    exact h m hm

/-- A change that is made alike at every instant. -/
theorem steady_modify {f : Machine → Machine}
    (hf : ∀ m clock, f (m.atInstant clock) = (f m).atInstant clock)
    (h : ∀ m, m.Avoids "NOW" → (f m).Avoids "NOW") :
    Steady (fun _ => True) (Run.modify f : Eval Unit) := by
  refine fun m hm => ⟨fun clock => ?_, h m hm, fun _ _ => trivial⟩
  rw [Run.modify, Run.modify, hf m clock]

theorem Steady.bind {run : Eval α} {next : α → Eval β} (h : Steady good run)
    (hnext : ∀ a, good a → Steady good' (next a)) : Steady good' (run >>= next) := by
  intro m hm
  obtain ⟨htimeless, havoids, hgood⟩ := h m hm
  unfold Timeless at htimeless ⊢
  simp only [Run.bind_apply, htimeless]
  generalize run m = reply at *
  rcases reply with ⟨a | fault | _, m₁⟩
  -- what follows starts on a machine that avoids `NOW` again
  · exact hnext a (hgood a rfl) m₁ havoids
  · exact ⟨fun _ => rfl, havoids, nofun⟩
  · exact ⟨fun _ => rfl, havoids, nofun⟩

theorem steady_record (event : Event) : Steady (fun _ => True) (Eval.record event) :=
  steady_modify (fun _ _ => rfl) fun _ hm => hm

theorem steady_bindName (name : String) {v : Value} (hv : v.Avoids "NOW") :
    Steady (fun _ => True) (Eval.bindName scope name v) :=
  steady_modify (fun _ _ => rfl) fun _ hm => hm.set scope fun _ => hv

theorem setAll_atInstant (m : Machine) (clock : Instant) (bindings : List (String × Value)) :
    (m.atInstant clock).setAll scope bindings = (m.setAll scope bindings).atInstant clock := by
  induction bindings generalizing m with
  | nil => rfl
  | cons binding bindings ih => exact ih (m.set scope binding.1 binding.2)

theorem steady_enter (name : String) (p : Position) (params : List String) {vs : List Value}
    (hvs : ∀ v ∈ vs, v.Avoids "NOW") :
    Steady (fun _ => True) (Eval.enter scope name p (params.zip vs)) := by
  refine fun m hm => ⟨fun clock => ?_, ?_, fun _ _ => trivial⟩
  · show (Outcome.value m.scopes.size, ((m.enter scope name p).2.atInstant clock).setAll _ _) = _
    rw [setAll_atInstant]
    rfl
  · refine (hm.enter scope name p).setAll _ _ ?_
    rintro ⟨param, v⟩ hmem -
    exact hvs v (List.of_mem_zip hmem).2

end computations

/-! ### The evaluator

Each part of the evaluator is steady if the evaluator it uses for subexpressions is. -/

/-- Every expression that does not read `NOW` is evaluated steadily, to a value through which `NOW`
cannot be called. -/
def Evaluator.Steady (ev : Evaluator) : Prop :=
  ∀ scope e, e.Avoids "NOW" → LineScript.Steady (Value.Avoids "NOW") (ev scope e)

section evaluator

variable {ev : Evaluator} {scope : ScopeId}

theorem steady_all (hev : ev.Steady) (es : List Expr) (hes : Expr.AllAvoid "NOW" es) :
    Steady (fun vs => ∀ v ∈ vs, Value.Avoids "NOW" v) (Eval.all ev scope es) := by
  induction es with
  | nil => exact steady_pure nofun
  | cons e es ih =>
    refine (hev scope e hes.1).bind fun v hv => (ih hes.2).bind fun vs hvs => ?_
    exact steady_pure (List.forall_mem_cons.mpr ⟨hv, hvs⟩)

theorem steady_condition (hev : ev.Steady) {e : Expr} (he : e.Avoids "NOW") :
    Steady (fun _ => True) (Eval.condition ev scope e) :=
  (hev scope e he).bind fun _ _ => steady_lift_any _ _

theorem steady_bound (hev : ev.Steady) {e : Expr} (he : e.Avoids "NOW") (operation : String) :
    Steady (fun _ => True) (Eval.bound ev scope e operation) :=
  (hev scope e he).bind fun _ _ => steady_lift_any _ _

theorem steady_body (hev : ev.Steady) {b : Body} (hb : b.Avoids "NOW") :
    Steady (Value.Avoids "NOW") (Eval.body ev scope b) := by
  refine (hev scope b.expr (Body.avoids_expr hb)).bind fun v hv => steady_pure ?_
  cases b with
  | inline e => exact hv
  | block e => exact ((uniform_avoids "NOW").yield ⟨rfl, hv⟩ e e).2

theorem steady_chain (hev : ev.Steady) : ∀ r : Chain, r.Avoids "NOW" →
    Steady (Value.Avoids "NOW") (Eval.chain ev scope r)
  | .done, _ => steady_pure (.number _)
  | .otherwise _, hr => steady_body hev hr
  | .elif _ _ r, hr => by
    refine (steady_condition hev hr.1).bind fun holds _ => ?_
    cases holds with
    | true => exact steady_body hev hr.2.1
    | false => exact steady_chain hev r hr.2.2
termination_by structural r => r

theorem steady_variable {name : String} (hname : name ≠ "NOW") (p : Position) :
    Steady (Value.Avoids "NOW") (Eval.variable_ scope name p) := by
  have hlook : Steady (fun found => ∀ v, found = some v → v.Avoids "NOW")
      (Run.look (·.lookup scope name) : Eval _) :=
    steady_look (fun _ _ => rfl) fun _ hm _ hv => hm.lookup hv hname
  refine hlook.bind fun found hfound => ?_
  cases found with
  | some v => exact steady_pure (hfound v rfl)
  | none => exact steady_raise p _

theorem steady_countFrom (hev : ev.Steady) (var : String) {b : Body} (hb : b.Avoids "NOW")
    (stop step : Float) (n : Nat) (i : Float) {done : List Value}
    (hdone : ∀ v ∈ done, v.Avoids "NOW") :
    Steady (fun vs => ∀ v ∈ vs, Value.Avoids "NOW" v)
      (Eval.countFrom ev scope var b stop step n i done) := by
  induction n generalizing i done with
  | zero => exact steady_exhausted
  | succ n ih =>
    rw [Eval.countFrom]
    split
    · refine (steady_bindName var (.number i)).bind fun _ _ => ?_
      refine (steady_body hev hb).bind fun v hv => ?_
      exact ih _ (List.forall_mem_cons.mpr ⟨hv, hdone⟩)
    · exact steady_pure fun v hv => hdone v (List.mem_reverse.mp hv)

theorem steady_forTo (hev : ev.Steady) (n : Nat) (var : String) {start stop : Expr}
    {step : Option Expr} {b : Body} (hstart : start.Avoids "NOW") (hstop : stop.Avoids "NOW")
    (hstep : Expr.OptionAvoids "NOW" step) (hb : b.Avoids "NOW") (p : Position) :
    Steady (Value.Avoids "NOW") (Eval.forTo ev n scope var start stop step b p) := by
  refine (steady_bound hev hstart _).bind fun first _ => ?_
  refine (steady_bound hev hstop _).bind fun last _ => ?_
  -- with the step known, what remains are the iterations and an entry in the log
  have hrest : ∀ by_ : Float, True → Steady (Value.Avoids "NOW") (do
      let values ← Eval.countFrom ev scope var b last by_ n first []
      Eval.record (.forRan var p values.length)
      pure (Value.list values)) := by
    intro by_ _
    refine (steady_countFrom hev var hb last by_ n first (List.forall_mem_nil _)).bind ?_
    intro vs hvs
    exact (steady_record _).bind fun _ _ => steady_pure (.list hvs)
  cases step with
  | none => exact (steady_pure trivial).bind hrest
  | some e => exact (steady_bound hev hstep _).bind hrest

theorem steady_repeatWhile (hev : ev.Steady) {c : Expr} (hc : c.Avoids "NOW") {b : Body}
    (hb : b.Avoids "NOW") (n : Nat) {done : List Value} (hdone : ∀ v ∈ done, v.Avoids "NOW") :
    Steady (fun vs => ∀ v ∈ vs, Value.Avoids "NOW" v) (Eval.repeatWhile ev scope c b n done) := by
  induction n generalizing done with
  | zero => exact steady_exhausted
  | succ n ih =>
    refine (steady_condition hev hc).bind fun holds _ => ?_
    cases holds with
    | true =>
      refine (steady_body hev hb).bind fun v hv => ?_
      exact ih (List.forall_mem_cons.mpr ⟨hv, hdone⟩)
    | false => exact steady_pure fun v hv => hdone v (List.mem_reverse.mp hv)

theorem steady_define (name : Option String) (params : List String) {b : Body}
    (hb : b.Avoids "NOW") : Steady (Value.Avoids "NOW") (Eval.define scope name params b) := by
  cases name with
  | some name =>
    exact (steady_bindName name (.function hb)).bind fun _ _ => steady_pure (.function hb)
  | none => exact steady_pure (.function hb)

theorem steady_callFunction (hev : ev.Steady) {f : Closure} (hf : f.body.Avoids "NOW")
    {vs : List Value} (hvs : ∀ v ∈ vs, v.Avoids "NOW") (p : Position) :
    Steady (Value.Avoids "NOW") (Eval.callFunction ev scope f vs p) := by
  refine (steady_lift_any p _).bind fun _ _ => ?_
  refine (steady_record _).bind fun _ _ => ?_
  exact (steady_enter _ p f.params hvs).bind fun _ _ => steady_body hev hf

/-- Every other built-in function does the same at every instant. -/
theorem Builtin.apply_of_ne_now {b : Builtin} (hb : b ≠ .now) (clock clock' : Instant)
    (vs : List Value) : b.apply clock' vs = b.apply clock vs := by
  cases b with
  | now => exact absurd rfl hb
  | _ => rfl

/-- A built-in function is found by its name, so under another name it is another one. -/
theorem Builtin.ne_now_of_ofName? {name : String} {b : Builtin} (hb : Builtin.ofName? name = some b)
    (hname : name ≠ "NOW") : b ≠ .now := by
  rintro rfl
  rw [Builtin.ofName?] at hb
  have hfound := List.find?_some hb
  exact hname (beq_iff_eq.mp hfound).symm

theorem recordAll_atInstant (events : List Event) (m : Machine) (clock : Instant) :
    events.foldl Machine.record (m.atInstant clock) =
      (events.foldl Machine.record m).atInstant clock := by
  induction events generalizing m with
  | nil => rfl
  | cons event events ih => exact ih (m.record event)

theorem steady_callBuiltin {name : String} (hname : name ≠ "NOW") {vs : List Value}
    (hvs : ∀ v ∈ vs, v.Avoids "NOW") (p : Position) :
    Steady (Value.Avoids "NOW") (Eval.callBuiltin scope name vs p) := by
  unfold Eval.callBuiltin
  cases hb : Builtin.ofName? name with
  | none => exact steady_raise p _
  | some b =>
    have hnow : b ≠ .now := Builtin.ne_now_of_ofName? hb hname
    refine (steady_lift_any p _).bind fun _ _ => ?_
    have hlook : Steady (fun r => Avoiding "NOW" r.1)
        (Run.look fun m => b.apply m.clock vs : Eval _) := by
      refine steady_look (fun _ _ => Builtin.apply_of_ne_now hnow _ _ vs) fun m _ => ?_
      exact avoiding_of_like ((uniform_avoids "NOW").builtin b m.clock
        (forall₂_avoids_iff.mpr ⟨rfl, hvs⟩)).1
    refine hlook.bind ?_
    rintro ⟨result, events⟩ hresult
    have hrecord : Steady (fun _ => True)
        (Run.modify fun m => events.foldl Machine.record m : Eval Unit) := by
      refine steady_modify (recordAll_atInstant events) fun m hm => ?_
      rw [Machine.Avoids, Machine.scopes_recordAll]
      exact hm
    exact hrecord.bind fun _ _ => steady_lift p hresult

theorem steady_call (hev : ev.Steady) {f : Value} (hf : f.Avoids "NOW") {vs : List Value}
    (hvs : ∀ v ∈ vs, v.Avoids "NOW") (p : Position) :
    Steady (Value.Avoids "NOW") (Eval.call ev scope f vs p) := by
  cases hf with
  | function hf => exact steady_callFunction hev hf hvs p
  | builtIn hname => exact steady_callBuiltin hname hvs p
  | number | text | list => exact steady_raise p _

theorem evalOver_steady (hev : ev.Steady) (n : Nat) : Evaluator.Steady (evalOver ev n) := by
  intro scope e he
  cases e with
  | number value p => exact steady_pure (.number value)
  | text value p => exact steady_pure (.text value)
  | list es p => exact (steady_all hev es he).bind fun _ hvs => steady_pure (.list hvs)
  | name name p => exact steady_variable he p
  | assign name value p =>
    refine (hev scope value he).bind fun v hv => ?_
    exact (steady_bindName name hv).bind fun _ _ => steady_pure hv
  | binary op l r p =>
    refine (hev scope l he.1).bind fun left hleft => (hev scope r he.2).bind fun right hright => ?_
    exact steady_lift p (avoiding_of_like
      ((uniform_avoids "NOW").applyBinary ⟨rfl, hleft⟩ ⟨rfl, hright⟩ op))
  | unary op operand p =>
    refine (hev scope operand he).bind fun v hv => ?_
    exact steady_lift p (avoiding_of_like ((uniform_avoids "NOW").applyUnary ⟨rfl, hv⟩ op))
  | ifThen c b r p => exact steady_chain hev (.elif c b r) he
  | forTo var start stop step b p =>
    exact steady_forTo hev n var he.1 he.2.1 he.2.2.1 he.2.2.2 p
  | whileDo c b p =>
    refine (steady_repeatWhile hev he.1 he.2 n (List.forall_mem_nil _)).bind fun vs hvs => ?_
    exact (steady_record _).bind fun _ _ => steady_pure (.list hvs)
  | function name params b p => exact steady_define name params he
  | call callee es p =>
    refine (hev scope callee he.1).bind fun f hf => (steady_all hev es he.2).bind fun vs hvs => ?_
    exact steady_call hev hf hvs p

end evaluator

theorem eval_steady (n : Nat) : Evaluator.Steady (eval n) := by
  induction n with
  | zero => exact fun _ _ _ => steady_exhausted
  | succ n ih => exact evalOver_steady ih n

/-- An expression that does not read `NOW`, in a machine where `NOW` has no other name, does not
depend on the time. -/
theorem eval_timeless (n : Nat) (scope : ScopeId) {e : Expr} (he : e.Avoids "NOW")
    (hm : m.Avoids "NOW") : Timeless (eval n scope e) m :=
  (eval_steady n scope e he m hm).1

end LineScript
