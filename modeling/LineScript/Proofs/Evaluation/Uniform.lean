import Mathlib.Data.List.Forall2
import LineScript.Eval

/-!
# Relations between values that operators respect

An operator or a built-in function looks at the numbers, the strings and the lists among its
operands, and at the kind and the name of everything else. So a relation between values that keeps
these apart is respected by all of them: from related operands they give related results, or fail
for the same cause, and print the same.

  * `Layer rel v v'`: the outermost layer of the values is the same and what is inside a list is
    related.
  * `Uniform rel`: related values have the same outermost layer, and numbers, strings and lists with
    the same layer are related.
  * `LikeResult rel`: related results, or the same cause.
-/

namespace LineScript

/-- Results that are alike: related results, or the same cause. -/
inductive LikeResult {α β : Type} (rel : α → β → Prop) : Except Cause α → Except Cause β → Prop
  | ok {a : α} {b : β} (h : rel a b) : LikeResult rel (.ok a) (.ok b)
  | error (cause : Cause) : LikeResult rel (.error cause) (.error cause)

theorem LikeResult.imp {α β : Type} {rel rel' : α → β → Prop} {r : Except Cause α}
    {r' : Except Cause β} (h : LikeResult rel r r') (himp : ∀ a b, rel a b → rel' a b) :
    LikeResult rel' r r' := by
  cases h with
  | ok h => exact .ok (himp _ _ h)
  | error cause => exact .error cause

theorem likeResult_refl {α : Type} (r : Except Cause α) : LikeResult Eq r r := by
  cases r with
  | ok a => exact .ok rfl
  | error cause => exact .error cause

/-- Values that are the same on the outside, with related elements if they are lists. -/
inductive Layer (rel : Value → Value → Prop) : Value → Value → Prop
  | number (x : Float) : Layer rel (.number x) (.number x)
  | text (s : String) : Layer rel (.text s) (.text s)
  | list {vs vs' : List Value} (h : List.Forall₂ rel vs vs') : Layer rel (.list vs) (.list vs')
  | function {f f' : Closure} (h : f'.displayName = f.displayName) :
    Layer rel (.function f) (.function f')
  | builtIn (name : String) : Layer rel (.builtIn name) (.builtIn name)

/-- A relation that differs from equality at most inside functions. -/
structure Uniform (rel : Value → Value → Prop) : Prop where
  /-- Related values are the same on the outside. -/
  layer : ∀ {v v' : Value}, rel v v' → Layer rel v v'
  /-- A number is related to itself. -/
  number : ∀ x, rel (.number x) (.number x)
  /-- A string is related to itself. -/
  text : ∀ s, rel (.text s) (.text s)
  /-- Lists of related values are related. -/
  list : ∀ {vs vs' : List Value}, List.Forall₂ rel vs vs' → rel (.list vs) (.list vs')

/-! ### Properties of values

A property of values that comes with the elements of a list is a relation between equal values. -/

section properties

variable {P : Value → Prop}

theorem forall₂_property_iff {vs vs' : List Value} :
    List.Forall₂ (fun v v' => v' = v ∧ P v) vs vs' ↔ vs' = vs ∧ ∀ v ∈ vs, P v := by
  constructor
  · intro h
    induction h with
    | nil => exact ⟨rfl, nofun⟩
    | cons hv _ ih =>
      obtain ⟨rfl, hv⟩ := hv
      obtain ⟨rfl, hvs⟩ := ih
      exact ⟨rfl, List.forall_mem_cons.mpr ⟨hv, hvs⟩⟩
  · rintro ⟨rfl, h⟩
    exact List.forall₂_same.mpr fun v hv => ⟨rfl, h v hv⟩

/-- A property that all numbers and strings have, and a list exactly if its elements have it. -/
theorem Uniform.of_property (number : ∀ x, P (.number x)) (text : ∀ s, P (.text s))
    (list : ∀ vs, P (.list vs) ↔ ∀ v ∈ vs, P v) : Uniform (fun v v' : Value => v' = v ∧ P v) where
  layer := by
    rintro _ v ⟨rfl, h⟩
    cases v with
    | number x => exact .number x
    | text s => exact .text s
    | list vs => exact .list (forall₂_property_iff.mpr ⟨rfl, (list vs).mp h⟩)
    | function f => exact .function rfl
    | builtIn name => exact .builtIn name
  number x := ⟨rfl, number x⟩
  text s := ⟨rfl, text s⟩
  list h := by
    obtain ⟨rfl, h⟩ := forall₂_property_iff.mp h
    exact ⟨rfl, (list _).mpr h⟩

theorem LikeResult.property {r r' : Except Cause Value}
    (h : LikeResult (fun v v' => v' = v ∧ P v) r r') : ∀ v, r = .ok v → P v := by
  rintro v rfl
  cases h with
  | ok h => exact h.2

end properties

namespace Uniform

variable {rel : Value → Value → Prop} {v v' w w' : Value} {vs vs' : List Value}

theorem kind (hrel : Uniform rel) (h : rel v v') : v'.kind = v.kind := by
  cases hrel.layer h <;> rfl

theorem truth? (hrel : Uniform rel) (h : rel v v') : v'.truth? = v.truth? := by
  cases hrel.layer h <;> rfl

mutual

theorem renderIn_eq (hrel : Uniform rel) (inList : Bool) :
    ∀ v v' : Value, rel v v' → v'.renderIn inList = v.renderIn inList
  | .list vs, _, h => by
    cases hrel.layer h with
    | @list _ vs' hs =>
      show "[" ++ ", ".intercalate (Value.renderEach vs') ++ "]" = _
      rw [renderEach_eq hrel vs vs' hs]
      rfl
  | .function f, _, h => by
    cases hrel.layer h with
    | @function _ f' hf =>
      show "<function " ++ f'.displayName ++ ">" = _
      rw [hf]
      rfl
  | .number _, _, h => by cases hrel.layer h; rfl
  | .text _, _, h => by cases hrel.layer h; rfl
  | .builtIn _, _, h => by cases hrel.layer h; rfl
termination_by structural v => v

theorem renderEach_eq (hrel : Uniform rel) :
    ∀ vs vs' : List Value, List.Forall₂ rel vs vs' → Value.renderEach vs' = Value.renderEach vs
  | [], _, h => by cases h; rfl
  | v :: vs, _, h => by
    cases h with
    | @cons _ v' _ vs' hv hvs =>
      show v'.renderIn true :: Value.renderEach vs' = _
      rw [renderIn_eq hrel true v v' hv, renderEach_eq hrel vs vs' hvs]
      rfl
termination_by structural vs => vs

end

/-- Related values have the same text. -/
theorem render (hrel : Uniform rel) (h : rel v v') : v'.render = v.render :=
  renderIn_eq hrel false v v' h

/-! ### Operators -/

theorem condition (hrel : Uniform rel) (h : rel v v') : v'.condition = v.condition := by
  rw [Value.condition, Value.condition, hrel.truth? h, hrel.kind h]

theorem toNumber (hrel : Uniform rel) (h : rel v v') (operation : String) :
    v'.toNumber operation = v.toNumber operation := by
  cases hrel.layer h <;> rfl

theorem refuse (hrel : Uniform rel) (h : rel v v') (h' : rel w w') (op : BinaryOperator) :
    Value.refuse op v' w' = Value.refuse op v w := by
  rw [Value.refuse, Value.refuse, hrel.kind h, hrel.kind h']

theorem refusal (hrel : Uniform rel) (h : rel v v') (h' : rel w w') (op : BinaryOperator) :
    LikeResult rel (.error (Value.refuse op v w)) (.error (Value.refuse op v' w')) := by
  rw [hrel.refuse h h']
  exact .error _

theorem arithmetic (hrel : Uniform rel) (h : rel v v') (h' : rel w w') (op : BinaryOperator) :
    LikeResult rel (Value.arithmetic op v w) (Value.arithmetic op v' w') := by
  have hrefuse := hrel.refusal h h' op
  cases hrel.layer h with
  | number a =>
    cases hrel.layer h' with
    | number b =>
      cases op with
      | add | sub | mul | pow => exact .ok (hrel.number _)
      | div =>
        simp only [Value.arithmetic]
        split
        · exact .error _
        · exact .ok (hrel.number _)
      | _ => exact hrefuse
    | _ => exact hrefuse
  | _ => exact hrefuse

theorem compareBy (hrel : Uniform rel) (h : rel v v') (h' : rel w w') (op : BinaryOperator)
    (order : Option Ordering) :
    LikeResult rel (Value.compareBy op v w order) (Value.compareBy op v' w' order) := by
  rw [Value.compareBy, Value.compareBy, hrel.refuse h h']
  cases Value.comparisonHolds op order with
  | some b => exact .ok (hrel.number _)
  | none => exact .error _

theorem comparison (hrel : Uniform rel) (h : rel v v') (h' : rel w w') (op : BinaryOperator) :
    LikeResult rel (Value.comparison op v w) (Value.comparison op v' w') := by
  have hrefuse := hrel.refusal h h' op
  cases hrel.layer h with
  | number a =>
    cases hrel.layer h' with
    | number b => exact hrel.compareBy h h' op _
    | _ => exact hrefuse
  | text a =>
    cases hrel.layer h' with
    | text b => exact hrel.compareBy h h' op _
    | _ => exact hrefuse
  | _ => exact hrefuse

theorem logic (hrel : Uniform rel) (h : rel v v') (h' : rel w w') (op : BinaryOperator) :
    LikeResult rel (Value.logic op v w) (Value.logic op v' w') := by
  rw [Value.logic, Value.logic, hrel.truth? h, hrel.truth? h', hrel.kind h, hrel.kind h',
    hrel.refuse h h']
  split
  · split
    · cases op with
      | and | or => exact .ok (hrel.number _)
      | _ => exact .error _
    · exact .error _
  · exact .error _

theorem getElem? (h : List.Forall₂ rel vs vs') (i : Nat) : Option.Rel rel vs[i]? vs'[i]? := by
  induction h generalizing i with
  | nil => exact .none
  | cons h _ ih =>
    cases i with
    | zero => exact .some h
    | succ i => exact ih i

theorem eraseIdx (h : List.Forall₂ rel vs vs') (i : Nat) :
    List.Forall₂ rel (vs.eraseIdx i) (vs'.eraseIdx i) := by
  induction h generalizing i with
  | nil => exact .nil
  | cons h hs ih =>
    cases i with
    | zero => exact hs
    | succ i => exact .cons h (ih i)

theorem removeAt (hrel : Uniform rel) (h : List.Forall₂ rel vs vs') (index : Float) :
    LikeResult rel (Value.removeAt vs index) (Value.removeAt vs' index) := by
  rw [Value.removeAt, Value.removeAt, h.length_eq]
  split
  · exact .ok (hrel.list (eraseIdx h _))
  · exact .error _

theorem elementAt (h : List.Forall₂ rel vs vs') (index : Float) :
    LikeResult rel (Value.elementAt vs index) (Value.elementAt vs' index) := by
  rw [Value.elementAt, Value.elementAt, h.length_eq]
  cases Number.index? index vs'.length with
  | none => exact .error _
  | some i =>
    have hi := getElem? h i
    simp only [Option.bind_some]
    generalize vs[i]? = found, vs'[i]? = found' at hi
    cases hi with
    | some h => exact .ok h
    | none => exact .error _

/-- Operators cannot tell related values apart. -/
theorem applyBinary (hrel : Uniform rel) (h : rel v v') (h' : rel w w') (op : BinaryOperator) :
    LikeResult rel (v.applyBinary op w) (v'.applyBinary op w') := by
  have harithmetic := hrel.arithmetic h h' op
  cases op with
  | add =>
    cases hrel.layer h with
    | list hs => exact .ok (hrel.list (List.rel_append hs (.cons h' .nil)))
    | text a =>
      cases hrel.layer h' with
      | text b => exact .ok (hrel.text _)
      | _ => exact harithmetic
    | _ => exact harithmetic
  | sub =>
    cases hrel.layer h with
    | list hs =>
      cases hrel.layer h' with
      | number x => exact hrel.removeAt hs x
      | _ => exact harithmetic
    | _ => exact harithmetic
  | div =>
    cases hrel.layer h with
    | list hs =>
      cases hrel.layer h' with
      | number x => exact elementAt hs x
      | _ => exact harithmetic
    | _ => exact harithmetic
  | mul | pow => exact harithmetic
  | equal | notEqual | less | greater | lessEqual | greaterEqual => exact hrel.comparison h h' _
  | and | or => exact hrel.logic h h' _

theorem applyUnary (hrel : Uniform rel) (h : rel v v') (op : UnaryOperator) :
    LikeResult rel (v.applyUnary op) (v'.applyUnary op) := by
  cases op with
  | plus | negate =>
    cases hrel.layer h with
    | number x => exact .ok (hrel.number _)
    | _ => exact .error _
  | not =>
    simp only [Value.applyUnary, Value.refuseUnary, hrel.truth? h, hrel.kind h]
    cases v.truth? with
    | some b => exact .ok (hrel.number _)
    | none => exact .error _

/-! ### Bodies and built-in functions -/

/-- A block yields its first value. -/
theorem yield (hrel : Uniform rel) (h : rel v v') (e e' : Expr) :
    rel ((Body.block e).yield v) ((Body.block e').yield v') := by
  have hlayer := hrel.layer h
  cases hlayer with
  | list hs =>
    cases hs with
    | nil => exact hrel.number _
    | cons hfirst _ => exact hfirst
  | _ => exact h

/-- A built-in function gives related results and prints the same. -/
theorem builtin (hrel : Uniform rel) (b : Builtin) (clock : Instant) (h : List.Forall₂ rel vs vs') :
    LikeResult rel (b.apply clock vs).1 (b.apply clock vs').1 ∧
      (b.apply clock vs').2 = (b.apply clock vs).2 := by
  have hhead : Option.Rel rel vs.head? vs'.head? := by
    cases h with
    | nil => exact .none
    | cons h _ => exact .some h
  cases b with
  | print =>
    have hprinted : rel (vs.head?.getD .null) (vs'.head?.getD .null) := by
      generalize vs.head? = first, vs'.head? = first' at hhead
      cases hhead with
      | some h => exact h
      | none => exact hrel.number _
    refine ⟨.ok hprinted, ?_⟩
    simp only [Builtin.apply, hrel.render hprinted]
  | len =>
    refine ⟨?_, rfl⟩
    simp only [Builtin.apply]
    generalize vs.head? = first, vs'.head? = first' at hhead
    cases hhead with
    | none => exact .error _
    | some h =>
      cases hrel.layer h with
      | list hs =>
        simp only [Builtin.length, hs.length_eq]
        exact .ok (hrel.number _)
      | text s => exact .ok (hrel.number _)
      | _ => exact .error _
  | now => exact ⟨.ok (hrel.text _), rfl⟩
  | version => exact ⟨.ok (hrel.text _), rfl⟩
  | help => exact ⟨.ok (hrel.text _), rfl⟩

end Uniform

end LineScript
