import LineScript.Proofs.Evaluation.Uniform

/-!
# Pieces of code that do the same

Two pieces of code may differ in their places, in the layout of a body and in how a conditional is
nested, and still do the same. A `Likeness` is a relation between expressions, and one between
places, such that related expressions are nodes of the same kind with related parts. What the parts
may look like is said once and for all here:

  * `LikeBody`: a body that carries out one expression may be inline or a block.
  * `LikeChain`: further cases may stand in the chain or inside the last branch.
  * `LikeStep`: a missing step is the step 1.

A likeness of code gives a likeness of values (`LikeValue`): functions are alike if their bodies are.
All operators and built-in functions respect it (`uniform_likeValue`).
-/

namespace LineScript

/-! ### Code -/

/-- The body carries out the expression `e` and nothing else. -/
inductive Body.Just (e : Expr) : Body → Prop
  | inline : Just e (.inline e)
  | block (p : Position) : Just e (.block (.list [e] p))

section code

variable (place : Position → Position → Prop) (expr : Expr → Expr → Prop)
  (body : Body → Body → Prop)

/-- Bodies that carry out related expressions. -/
inductive LikeBody : Body → Body → Prop
  /-- Blocks of related statements. -/
  | block {e e' : Expr} (h : expr e e') : LikeBody (.block e) (.block e')
  /-- One expression each, inline or in a block. -/
  | just {e e' : Expr} {b b' : Body} (hb : b.Just e) (hb' : b'.Just e') (h : expr e e') :
    LikeBody b b'

/-- Steps of a counted loop; a missing one is the literal 1. -/
inductive LikeStep : Option Expr → Option Expr → Prop
  | none : LikeStep none none
  | some {e e' : Expr} (h : expr e e') : LikeStep (some e) (some e')
  | added (p : Position) : LikeStep none (some (.number 1 p))
  | dropped (p : Position) : LikeStep (some (.number 1 p)) none

/-- What follows a case of a conditional; further cases may stand in a conditional of their own in
the last branch. -/
inductive LikeChain : Chain → Chain → Prop
  | done : LikeChain .done .done
  | otherwise {b b' : Body} (h : body b b') : LikeChain (.otherwise b) (.otherwise b')
  | elif {c c' : Expr} {b b' : Body} {r r' : Chain} (hc : expr c c') (hb : body b b')
    (hr : LikeChain r r') : LikeChain (.elif c b r) (.elif c' b' r')
  | nested {c c' : Expr} {b b' : Body} {r r' : Chain} {last : Body} {p : Position} (hc : expr c c')
    (hb : body b b') (hr : LikeChain r r') (hlast : last.Just (.ifThen c' b' r' p)) :
    LikeChain (.elif c b r) (.otherwise last)
  | unnested {c c' : Expr} {b b' : Body} {r r' : Chain} {last : Body} {p : Position}
    (hc : expr c c') (hb : body b b') (hr : LikeChain r r')
    (hlast : last.Just (.ifThen c b r p)) : LikeChain (.otherwise last) (.elif c' b' r')

/-- Nodes of the same kind with related parts. -/
inductive LikeNode : Expr → Expr → Prop
  | number {p p' : Position} (value : Float) (hp : place p p') :
    LikeNode (.number value p) (.number value p')
  | text {p p' : Position} (value : String) (hp : place p p') :
    LikeNode (.text value p) (.text value p')
  | list {es es' : List Expr} {p p' : Position} (hes : List.Forall₂ expr es es')
    (hp : place p p') : LikeNode (.list es p) (.list es' p')
  | name {p p' : Position} (name : String) (hp : place p p') :
    LikeNode (.name name p) (.name name p')
  | assign {e e' : Expr} {p p' : Position} (name : String) (he : expr e e') (hp : place p p') :
    LikeNode (.assign name e p) (.assign name e' p')
  | binary {l l' r r' : Expr} {p p' : Position} (op : BinaryOperator) (hl : expr l l')
    (hr : expr r r') (hp : place p p') : LikeNode (.binary op l r p) (.binary op l' r' p')
  | unary {e e' : Expr} {p p' : Position} (op : UnaryOperator) (he : expr e e') (hp : place p p') :
    LikeNode (.unary op e p) (.unary op e' p')
  | ifThen {c c' : Expr} {b b' : Body} {r r' : Chain} {p p' : Position} (hc : expr c c')
    (hb : body b b') (hr : LikeChain expr body r r') (hp : place p p') :
    LikeNode (.ifThen c b r p) (.ifThen c' b' r' p')
  | forTo {start start' stop stop' : Expr} {step step' : Option Expr} {b b' : Body}
    {p p' : Position} (var : String) (hstart : expr start start') (hstop : expr stop stop')
    (hstep : LikeStep expr step step') (hb : body b b') (hp : place p p') :
    LikeNode (.forTo var start stop step b p) (.forTo var start' stop' step' b' p')
  | whileDo {c c' : Expr} {b b' : Body} {p p' : Position} (hc : expr c c')
    (hb : body b b') (hp : place p p') : LikeNode (.whileDo c b p) (.whileDo c' b' p')
  | function {b b' : Body} {p p' : Position} (name : Option String) (params : List String)
    (hb : body b b') (hp : place p p') :
    LikeNode (.function name params b p) (.function name params b' p')
  | call {f f' : Expr} {es es' : List Expr} {p p' : Position} (hf : expr f f')
    (hes : List.Forall₂ expr es es') (hp : place p p') : LikeNode (.call f es p) (.call f' es' p')

end code

/-- Which places, expressions and bodies are alike. -/
structure Likeness where
  /-- Places that are alike. -/
  place : Position → Position → Prop
  /-- Expressions that are alike. -/
  expr : Expr → Expr → Prop
  /-- Bodies that are alike. -/
  body : Body → Body → Prop
  /-- Like expressions are nodes of the same kind with like parts. -/
  node : ∀ {e e' : Expr}, expr e e' → LikeNode place expr body e e'
  /-- Like bodies carry out like expressions. -/
  layout : ∀ {b b' : Body}, body b b' → LikeBody expr b b'

section flip

variable {place : Position → Position → Prop} {expr : Expr → Expr → Prop} {body : Body → Body → Prop}

theorem LikeBody.flip {b b' : Body} (h : LikeBody expr b b') :
    LikeBody (fun e e' => expr e' e) b' b := by
  cases h with
  | block h => exact .block h
  | just hb hb' h => exact .just hb' hb h

theorem LikeStep.flip {s s' : Option Expr} (h : LikeStep expr s s') :
    LikeStep (fun e e' => expr e' e) s' s := by
  cases h with
  | none => exact .none
  | some h => exact .some h
  | added p => exact .dropped p
  | dropped p => exact .added p

theorem LikeChain.flip {r r' : Chain} (h : LikeChain expr body r r') :
    LikeChain (fun e e' => expr e' e) (fun b b' => body b' b) r' r := by
  induction h with
  | done => exact .done
  | otherwise h => exact .otherwise h
  | elif hc hb _ ih => exact .elif hc hb ih
  | nested hc hb _ hlast ih => exact .unnested hc hb ih hlast
  | unnested hc hb _ hlast ih => exact .nested hc hb ih hlast

theorem LikeNode.flip {e e' : Expr} (h : LikeNode place expr body e e') :
    LikeNode (fun p p' => place p' p) (fun e e' => expr e' e) (fun b b' => body b' b) e' e := by
  cases h with
  | number value hp => exact .number value hp
  | text value hp => exact .text value hp
  | list hes hp => exact .list hes.flip hp
  | name name hp => exact .name name hp
  | assign name he hp => exact .assign name he hp
  | binary op hl hr hp => exact .binary op hl hr hp
  | unary op he hp => exact .unary op he hp
  | ifThen hc hb hr hp => exact .ifThen hc hb hr.flip hp
  | forTo var hstart hstop hstep hb hp => exact .forTo var hstart hstop hstep.flip hb hp
  | whileDo hc hb hp => exact .whileDo hc hb hp
  | function name params hb hp => exact .function name params hb hp
  | call hf hes hp => exact .call hf hes.flip hp

end flip

namespace Likeness

/-- The likeness read from right to left. -/
def flip (K : Likeness) : Likeness where
  place p p' := K.place p' p
  expr e e' := K.expr e' e
  body b b' := K.body b' b
  node h := (K.node h).flip
  layout h := (K.layout h).flip

variable {K : Likeness}

/-- Like expressions stand at like places. -/
theorem position {e e' : Expr} (h : K.expr e e') : K.place e.position e'.position := by
  cases K.node h <;> assumption

/-! ### Values -/

/-- Functions that differ in their bodies only, and these are alike. -/
structure LikeClosure (K : Likeness) (f f' : Closure) : Prop where
  /-- The names are the same. -/
  name : f'.name = f.name
  /-- The parameters are the same. -/
  params : f'.params = f.params
  /-- The bodies are alike. -/
  body : K.body f.body f'.body
  /-- The scopes that the functions close over are the same. -/
  scope : f'.scope = f.scope

/-- Values that differ in the bodies of functions only, and these are alike. -/
inductive LikeValue (K : Likeness) : Value → Value → Prop
  | number (x : Float) : LikeValue K (.number x) (.number x)
  | text (s : String) : LikeValue K (.text s) (.text s)
  | list {vs vs' : List Value} (h : List.Forall₂ (LikeValue K) vs vs') :
    LikeValue K (.list vs) (.list vs')
  | function {f f' : Closure} (h : K.LikeClosure f f') : LikeValue K (.function f) (.function f')
  | builtIn (name : String) : LikeValue K (.builtIn name) (.builtIn name)

theorem LikeClosure.displayName {f f' : Closure} (h : K.LikeClosure f f') :
    f'.displayName = f.displayName := by
  rw [Closure.displayName, h.name, Closure.displayName]

/-- Operators and built-in functions respect the likeness of values. -/
theorem uniform_likeValue (K : Likeness) : Uniform K.LikeValue where
  layer h := by
    cases h with
    | number x => exact .number x
    | text s => exact .text s
    | list h => exact .list h
    | function h => exact .function h.displayName
    | builtIn name => exact .builtIn name
  number := .number
  text := .text
  list := .list

mutual

/-- Where bodies are like themselves, values are. -/
theorem likeValue_refl (hbody : ∀ b, K.body b b) : ∀ v : Value, K.LikeValue v v
  | .number x => .number x
  | .text s => .text s
  | .list vs => .list (likeValues_refl hbody vs)
  | .function f => .function ⟨rfl, rfl, hbody f.body, rfl⟩
  | .builtIn name => .builtIn name
termination_by structural v => v

theorem likeValues_refl (hbody : ∀ b, K.body b b) :
    ∀ vs : List Value, List.Forall₂ K.LikeValue vs vs
  | [] => .nil
  | v :: vs => .cons (likeValue_refl hbody v) (likeValues_refl hbody vs)
termination_by structural vs => vs

end

end Likeness

end LineScript
