import LineScript.Proofs.Evaluation.Renaming
import LineScript.Proofs.Evaluation.Timeless

/-!
# Only what is in scope matters

An expression, evaluated in a scope, sees the scopes that can be reached from there and nothing else.
Two stores that hold the same reachable scopes under other numbers give the same result, up to a
renaming of the scopes; and a function does the same wherever it is called from.

  * `Renaming.Later`: new pairs of scopes were created after the given machines.
  * `Lockstep ρ rel run run'`: from machines that mirror each other on, both computations are at
    their bound, or they end with related values or with the same fault, and the machines mirror each
    other again.
  * `EndsLike`: how two computations end, seen from outside.

**Key idea.** The two evaluations create scopes at the same moments, so the renaming grows by the two
new scopes at each call. A computation and what follows it are put together with the renaming as it
is in between; what was related before stays related, since renamings only grow.
-/

namespace LineScript

open Run

namespace Renaming

variable {ρ ρ₁ ρ₂ : Renaming} {m m' m₁ m₁' m₂ m₂' : Machine}

/-! ### Later moments -/

/-- The renaming has grown by scopes that are new in both stores. -/
structure Later (ρ : Renaming) (m m' : Machine) (ρ₁ : Renaming) (m₁ m₁' : Machine) : Prop where
  /-- What was renamed still is. -/
  le : ρ ≤ ρ₁
  /-- What else is renamed is new. -/
  fresh : ∀ i j, ρ₁.pairs i j → ρ.pairs i j ∨ (m.scopes.size ≤ i ∧ m'.scopes.size ≤ j)
  /-- No scope has disappeared from the first store. -/
  size_le : m.scopes.size ≤ m₁.scopes.size
  /-- No scope has disappeared from the second store. -/
  size_le' : m'.scopes.size ≤ m₁'.scopes.size

/-- No scope is created. -/
theorem later_of_size (hsize : m₁.scopes.size = m.scopes.size)
    (hsize' : m₁'.scopes.size = m'.scopes.size) : ρ.Later m m' ρ m₁ m₁' :=
  ⟨fun _ _ h => h, fun _ _ h => .inl h, Nat.le_of_eq hsize.symm, Nat.le_of_eq hsize'.symm⟩

theorem Later.trans (h : ρ.Later m m' ρ₁ m₁ m₁') (h' : ρ₁.Later m₁ m₁' ρ₂ m₂ m₂') :
    ρ.Later m m' ρ₂ m₂ m₂' := by
  refine ⟨fun i j hpair => h'.le i j (h.le i j hpair), ?_, Nat.le_trans h.size_le h'.size_le,
    Nat.le_trans h.size_le' h'.size_le'⟩
  intro i j hpair
  rcases h'.fresh i j hpair with hpair | ⟨hi, hj⟩
  · exact h.fresh i j hpair
  · exact .inr ⟨Nat.le_trans h.size_le hi, Nat.le_trans h.size_le' hj⟩

/-! ### Computations in lockstep -/

/-- The same fault in renamed scopes. -/
structure LikeFault (ρ : Renaming) (f f' : Fault) : Prop where
  /-- The causes are the same. -/
  cause : f'.cause = f.cause
  /-- The places are the same. -/
  position : f'.position = f.position
  /-- The scope is renamed. -/
  scope : ρ.pairs f.scope f'.scope

/-- The same fault went through scopes of the same names, at the same places. -/
theorem LikeFault.trail {before before' : List String} {f f' : Fault} (h : ρ.LikeFault f f')
    (hm : ρ.Mirrors before before' m m') : f'.trail m'.scopes = f.trail m.scopes := by
  rw [Fault.trail, Fault.trail, h.position, hm.frames h.scope]

end Renaming

open Renaming

section lockstep

variable {α β γ δ : Type} {rel : Renaming → α → β → Prop} {rel' : Renaming → γ → δ → Prop}
  {ρ : Renaming}

/-- How two computations that were started on `m` and `m'` end in lockstep. -/
inductive EndLockstep (ρ : Renaming) (before before' : List String) (m m' : Machine)
    (rel : Renaming → α → β → Prop) :
    Outcome Fault α × Machine → Outcome Fault β × Machine → Prop
  /-- With related values. -/
  | value {ρ₁ : Renaming} {a : α} {b : β} {m₁ m₁' : Machine} (later : ρ.Later m m' ρ₁ m₁ m₁')
    (like : rel ρ₁ a b) (mirrors : ρ₁.Mirrors before before' m₁ m₁') :
    EndLockstep ρ before before' m m' rel (.value a, m₁) (.value b, m₁')
  /-- With the same fault. -/
  | error {ρ₁ : Renaming} {f f' : Fault} {m₁ m₁' : Machine} (later : ρ.Later m m' ρ₁ m₁ m₁')
    (like : ρ₁.LikeFault f f') (mirrors : ρ₁.Mirrors before before' m₁ m₁') :
    EndLockstep ρ before before' m m' rel (.error f, m₁) (.error f', m₁')
  /-- Both at the bound. -/
  | exhausted {m₁ m₁' : Machine} :
    EndLockstep ρ before before' m m' rel (.exhausted, m₁) (.exhausted, m₁')

/-- From machines that mirror each other on, the computations end in lockstep. -/
def Lockstep (ρ : Renaming) (rel : Renaming → α → β → Prop) (run : Eval α) (run' : Eval β) : Prop :=
  ∀ before before' m m', ρ.Mirrors before before' m m' →
    EndLockstep ρ before before' m m' rel (run m) (run' m')

theorem lockstep_pure {a : α} {b : β} (h : rel ρ a b) : Lockstep ρ rel (pure a) (pure b) :=
  fun _ _ _ _ hm => .value (later_of_size rfl rfl) h hm

theorem lockstep_exhausted : Lockstep ρ rel (exhausted : Eval α) (exhausted : Eval β) :=
  fun _ _ _ _ _ => .exhausted

theorem lockstep_raise {scope scope' : ScopeId} (hscope : ρ.pairs scope scope') (p : Position)
    (cause : Cause) :
    Lockstep ρ rel (Eval.raise scope p cause : Eval α) (Eval.raise scope' p cause : Eval β) :=
  fun _ _ _ _ hm => .error (later_of_size rfl rfl) ⟨rfl, rfl, hscope⟩ hm

theorem lockstep_lift {scope scope' : ScopeId} (hscope : ρ.pairs scope scope') (p : Position)
    {r : Except Cause α} {r' : Except Cause β} (h : LikeResult (rel ρ) r r') :
    Lockstep ρ rel (Eval.lift scope p r) (Eval.lift scope' p r') := by
  cases h with
  | ok h => exact lockstep_pure h
  | error cause => exact lockstep_raise hscope p cause

/-- What follows is put together with the renaming as it is by then. -/
theorem Lockstep.bind {run : Eval α} {run' : Eval β} {next : α → Eval γ} {next' : β → Eval δ}
    (h : Lockstep ρ rel run run')
    (hnext : ∀ ρ₁, ρ ≤ ρ₁ → ∀ a b, rel ρ₁ a b → Lockstep ρ₁ rel' (next a) (next' b)) :
    Lockstep ρ rel' (run >>= next) (run' >>= next') := by
  intro before before' m m' hm
  have hend := h before before' m m' hm
  rw [Run.bind_apply, Run.bind_apply]
  generalize run m = reply, run' m' = reply' at hend
  cases hend with
  | @value ρ₁ a b m₁ m₁' later like mirrors =>
    have hafter := hnext ρ₁ later.le a b like before before' m₁ m₁' mirrors
    show EndLockstep ρ before before' m m' rel' (next a m₁) (next' b m₁')
    generalize next a m₁ = reply, next' b m₁' = reply' at hafter
    cases hafter with
    | value later' like' mirrors' => exact .value (later.trans later') like' mirrors'
    | error later' like' mirrors' => exact .error (later.trans later') like' mirrors'
    | exhausted => exact .exhausted
  | error later like mirrors => exact .error later like mirrors
  | exhausted => exact .exhausted

/-- A change that creates no scope. -/
theorem lockstep_modify {f f' : Machine → Machine} (hsize : ∀ m, (f m).scopes.size = m.scopes.size)
    (hsize' : ∀ m, (f' m).scopes.size = m.scopes.size)
    (h : ∀ before before' m m', ρ.Mirrors before before' m m' →
      ρ.Mirrors before before' (f m) (f' m')) :
    Lockstep ρ (fun _ => Eq) (Run.modify f : Eval Unit) (Run.modify f') :=
  fun before before' m m' hm =>
    .value (later_of_size (hsize m) (hsize' m')) rfl (h before before' m m' hm)

theorem lockstep_record (event : Event) :
    Lockstep ρ (fun _ => Eq) (Eval.record event) (Eval.record event) :=
  lockstep_modify (fun _ => rfl) (fun _ => rfl) fun _ _ _ _ hm => hm.record event

theorem lockstep_bindName {scope scope' : ScopeId} (hscope : ρ.pairs scope scope') (name : String)
    {v v' : Value} (hv : ρ.LikeValue v v') :
    Lockstep ρ (fun _ => Eq) (Eval.bindName scope name v) (Eval.bindName scope' name v') :=
  lockstep_modify (fun m => m.size_set scope name v) (fun m => m.size_set scope' name v')
    fun _ _ _ _ hm => hm.set hscope name hv

/-- Both calls create a scope, and the renaming grows by the two. -/
theorem lockstep_enter {scope scope' : ScopeId} (hscope : ρ.pairs scope scope') (name : String)
    (p : Position) (params : List String) {vs vs' : List Value}
    (hvs : List.Forall₂ ρ.LikeValue vs vs') :
    Lockstep ρ Renaming.pairs (Eval.enter scope name p (params.zip vs))
      (Eval.enter scope' name p (params.zip vs')) := by
  intro before before' m m' hm
  have hentered := hm.enter hscope name p
  have hle : ρ ≤ ρ.add m.scopes.size m'.scopes.size hm.fresh := fun _ _ => .inl
  have hpair : (ρ.add m.scopes.size m'.scopes.size hm.fresh).pairs m.scopes.size m'.scopes.size :=
    .inr ⟨rfl, rfl⟩
  have hset := hentered.setAll hpair params (likeValues_mono hvs hle)
  refine .value ⟨hle, ?_, ?_, ?_⟩ hpair hset
  -- the two new scopes are the only new pair
  · rintro i j (h | ⟨rfl, rfl⟩)
    · exact .inl h
    · exact .inr ⟨Nat.le_refl _, Nat.le_refl _⟩
  · have hsize := ((m.enter scope name p).2.confined_setAll m.scopes.size (params.zip vs)
      (by rw [Machine.size_enter]; exact Nat.lt_succ_self _)).size_le
    rw [Machine.size_enter] at hsize
    exact Nat.le_trans (Nat.le_succ _) hsize
  · have hsize := ((m'.enter scope' name p).2.confined_setAll m'.scopes.size (params.zip vs')
      (by rw [Machine.size_enter]; exact Nat.lt_succ_self _)).size_le
    rw [Machine.size_enter] at hsize
    exact Nat.le_trans (Nat.le_succ _) hsize

end lockstep

/-! ### Calls -/

/-- Whether the number of arguments is that of the parameters. -/
def Closure.arity (f : Closure) (arguments : List Value) : Except Cause Unit :=
  checkArity f.displayName f.params.length arguments.length

/-- What a call does once the number of arguments is right: the caller has no part in it. -/
def Eval.carryOut (ev : Evaluator) (f : Closure) (arguments : List Value) (p : Position) :
    Eval Value := do
  Eval.record (.called f.displayName arguments.length)
  let inner ← Eval.enter f.scope f.displayName p (f.params.zip arguments)
  Eval.body ev inner f.body

theorem callFunction_eq (ev : Evaluator) (caller : ScopeId) (f : Closure) (arguments : List Value)
    (p : Position) :
    Eval.callFunction ev caller f arguments p =
      Eval.lift caller p (f.arity arguments) >>= fun _ => Eval.carryOut ev f arguments p :=
  rfl

theorem Renaming.LikeClosure.arity {ρ : Renaming} {f f' : Closure} (hf : ρ.LikeClosure f f')
    {vs vs' : List Value} (hvs : List.Forall₂ ρ.LikeValue vs vs') : f'.arity vs' = f.arity vs := by
  rw [Closure.arity, Closure.arity, hf.displayName, hf.params, hvs.length_eq]

/-! ### The evaluator

Each part of the evaluator runs in lockstep if the evaluator it uses for subexpressions does. -/

/-- In renamed scopes, evaluations of the same expression run in lockstep. -/
def Evaluator.Renames (ev : Evaluator) : Prop :=
  ∀ ⦃ρ : Renaming⦄ ⦃scope scope' : ScopeId⦄ (e : Expr), ρ.pairs scope scope' →
    Lockstep ρ LikeValue (ev scope e) (ev scope' e)

section evaluator

variable {ev : Evaluator} {ρ : Renaming} {scope scope' : ScopeId}

theorem lockstep_all (hev : ev.Renames) (es : List Expr) (hscope : ρ.pairs scope scope') :
    Lockstep ρ (fun ρ => List.Forall₂ ρ.LikeValue) (Eval.all ev scope es)
      (Eval.all ev scope' es) := by
  induction es generalizing ρ with
  | nil => exact lockstep_pure .nil
  | cons e es ih =>
    refine (hev e hscope).bind fun ρ₁ hle v v' hv => ?_
    refine (ih (hle _ _ hscope)).bind fun ρ₂ hle' vs vs' hvs => ?_
    exact lockstep_pure (.cons (hv.mono hle') hvs)

theorem lockstep_condition (hev : ev.Renames) (e : Expr) (hscope : ρ.pairs scope scope') :
    Lockstep ρ (fun _ => Eq) (Eval.condition ev scope e) (Eval.condition ev scope' e) := by
  refine (hev e hscope).bind fun ρ₁ hle v v' hv => ?_
  rw [ρ₁.uniform_likeValue.condition hv]
  exact lockstep_lift (hle _ _ hscope) _ (likeResult_refl _)

theorem lockstep_bound (hev : ev.Renames) (e : Expr) (operation : String)
    (hscope : ρ.pairs scope scope') :
    Lockstep ρ (fun _ => Eq) (Eval.bound ev scope e operation)
      (Eval.bound ev scope' e operation) := by
  refine (hev e hscope).bind fun ρ₁ hle v v' hv => ?_
  rw [ρ₁.uniform_likeValue.toNumber hv]
  exact lockstep_lift (hle _ _ hscope) _ (likeResult_refl _)

theorem lockstep_body (hev : ev.Renames) (b : Body) (hscope : ρ.pairs scope scope') :
    Lockstep ρ LikeValue (Eval.body ev scope b) (Eval.body ev scope' b) := by
  refine (hev b.expr hscope).bind fun ρ₁ hle v v' hv => lockstep_pure ?_
  cases b with
  | inline e => exact hv
  | block e => exact ρ₁.uniform_likeValue.yield hv e e

theorem lockstep_chain (hev : ev.Renames) : ∀ (r : Chain) {ρ : Renaming}, ρ.pairs scope scope' →
    Lockstep ρ LikeValue (Eval.chain ev scope r) (Eval.chain ev scope' r)
  | .done, _, _ => lockstep_pure (.number _)
  | .otherwise b, _, hscope => lockstep_body hev b hscope
  | .elif c b r, ρ, hscope => by
    refine (lockstep_condition hev c hscope).bind fun ρ₁ hle holds holds' hsame => ?_
    subst hsame
    cases holds with
    | true => exact lockstep_body hev b (hle _ _ hscope)
    | false => exact lockstep_chain hev r (hle _ _ hscope)
termination_by structural r => r

theorem lockstep_variable (name : String) (p : Position) (hscope : ρ.pairs scope scope') :
    Lockstep ρ LikeValue (Eval.variable_ scope name p) (Eval.variable_ scope' name p) := by
  have hlook : Lockstep ρ (fun ρ => Option.Rel ρ.LikeValue) (Run.look (·.lookup scope name) : Eval _)
      (Run.look (·.lookup scope' name)) :=
    fun _ _ _ _ hm => .value (later_of_size rfl rfl) (hm.lookup hscope name) hm
  refine hlook.bind fun ρ₁ hle found found' hfound => ?_
  cases hfound with
  | some hv => exact lockstep_pure hv
  | none => exact lockstep_raise (hle _ _ hscope) p _

theorem lockstep_countFrom (hev : ev.Renames) (var : String) (b : Body) (stop step : Float)
    (n : Nat) (i : Float) {done done' : List Value} (hdone : List.Forall₂ ρ.LikeValue done done')
    (hscope : ρ.pairs scope scope') :
    Lockstep ρ (fun ρ => List.Forall₂ ρ.LikeValue)
      (Eval.countFrom ev scope var b stop step n i done)
      (Eval.countFrom ev scope' var b stop step n i done') := by
  induction n generalizing ρ i done done' with
  | zero => exact lockstep_exhausted
  | succ n ih =>
    rw [Eval.countFrom, Eval.countFrom]
    split
    · refine (lockstep_bindName hscope var (.number i)).bind fun ρ₁ hle _ _ _ => ?_
      refine (lockstep_body hev b (hle _ _ hscope)).bind fun ρ₂ hle' v v' hv => ?_
      have hdone₁ := likeValues_mono hdone hle
      exact ih (i + step) (.cons hv (likeValues_mono hdone₁ hle')) (hle' _ _ (hle _ _ hscope))
    · exact lockstep_pure (List.rel_reverse hdone)

theorem lockstep_forTo (hev : ev.Renames) (n : Nat) (var : String) (start stop : Expr)
    (step : Option Expr) (b : Body) (p : Position) (hscope : ρ.pairs scope scope') :
    Lockstep ρ LikeValue (Eval.forTo ev n scope var start stop step b p)
      (Eval.forTo ev n scope' var start stop step b p) := by
  refine (lockstep_bound hev start _ hscope).bind fun ρ₁ hle₁ first first' hfirst => ?_
  subst hfirst
  have hscope₁ := hle₁ _ _ hscope
  refine (lockstep_bound hev stop _ hscope₁).bind fun ρ₂ hle₂ last last' hlast => ?_
  subst hlast
  have hscope₂ := hle₂ _ _ hscope₁
  -- with the step known, what remains are the iterations and an entry in the log
  have hrest : ∀ ρ₃, ρ₂ ≤ ρ₃ → ∀ by_ by_' : Float, by_ = by_' → Lockstep ρ₃ LikeValue (do
        let values ← Eval.countFrom ev scope var b last by_ n first []
        Eval.record (.forRan var p values.length)
        pure (Value.list values)) (do
        let values ← Eval.countFrom ev scope' var b last by_' n first []
        Eval.record (.forRan var p values.length)
        pure (Value.list values)) := by
    rintro ρ₃ hle₃ by_ _ rfl
    refine (lockstep_countFrom hev var b last by_ n first .nil (hle₃ _ _ hscope₂)).bind ?_
    intro ρ₄ _ vs vs' hvs
    rw [hvs.length_eq]
    refine (lockstep_record _).bind fun ρ₅ hle₅ _ _ _ => ?_
    exact lockstep_pure (.list (likeValues_mono hvs hle₅))
  cases step with
  | none => exact (lockstep_pure rfl).bind hrest
  | some e => exact (lockstep_bound hev e _ hscope₂).bind hrest

theorem lockstep_repeatWhile (hev : ev.Renames) (c : Expr) (b : Body) (n : Nat)
    {done done' : List Value} (hdone : List.Forall₂ ρ.LikeValue done done')
    (hscope : ρ.pairs scope scope') :
    Lockstep ρ (fun ρ => List.Forall₂ ρ.LikeValue) (Eval.repeatWhile ev scope c b n done)
      (Eval.repeatWhile ev scope' c b n done') := by
  induction n generalizing ρ done done' with
  | zero => exact lockstep_exhausted
  | succ n ih =>
    refine (lockstep_condition hev c hscope).bind fun ρ₁ hle holds holds' hsame => ?_
    subst hsame
    have hscope₁ := hle _ _ hscope
    have hdone₁ := likeValues_mono hdone hle
    cases holds with
    | true =>
      refine (lockstep_body hev b hscope₁).bind fun ρ₂ hle' v v' hv => ?_
      exact ih (.cons hv (likeValues_mono hdone₁ hle')) (hle' _ _ hscope₁)
    | false => exact lockstep_pure (List.rel_reverse hdone₁)

theorem lockstep_whileDo (hev : ev.Renames) (n : Nat) (c : Expr) (b : Body)
    (hscope : ρ.pairs scope scope') :
    Lockstep ρ LikeValue (Eval.whileDo ev n scope c b) (Eval.whileDo ev n scope' c b) := by
  refine (lockstep_repeatWhile hev c b n .nil hscope).bind fun ρ₁ _ vs vs' hvs => ?_
  rw [hvs.length_eq]
  refine (lockstep_record _).bind fun ρ₂ hle _ _ _ => ?_
  exact lockstep_pure (.list (likeValues_mono hvs hle))

theorem lockstep_define (name : Option String) (params : List String) (b : Body)
    (hscope : ρ.pairs scope scope') :
    Lockstep ρ LikeValue (Eval.define scope name params b) (Eval.define scope' name params b) := by
  have hf : ρ.LikeValue (.function ⟨name, params, b, scope⟩) (.function ⟨name, params, b, scope'⟩) :=
    .function ⟨rfl, rfl, rfl, hscope⟩
  cases name with
  | some name =>
    exact (lockstep_bindName hscope name hf).bind fun _ hle _ _ _ => lockstep_pure (hf.mono hle)
  | none => exact lockstep_pure hf

theorem lockstep_carryOut (hev : ev.Renames) {f f' : Closure} (hf : ρ.LikeClosure f f')
    {vs vs' : List Value} (hvs : List.Forall₂ ρ.LikeValue vs vs') (p : Position) :
    Lockstep ρ LikeValue (Eval.carryOut ev f vs p) (Eval.carryOut ev f' vs' p) := by
  unfold Eval.carryOut
  rw [hf.displayName, hf.params, hf.body, hvs.length_eq]
  refine (lockstep_record _).bind fun ρ₁ hle _ _ _ => ?_
  refine (lockstep_enter (hle _ _ hf.scope) _ p f.params (likeValues_mono hvs hle)).bind ?_
  exact fun ρ₂ _ inner inner' hinner => lockstep_body hev f.body hinner

theorem lockstep_callFunction (hev : ev.Renames) {f f' : Closure} (hf : ρ.LikeClosure f f')
    {vs vs' : List Value} (hvs : List.Forall₂ ρ.LikeValue vs vs') (p : Position)
    (hscope : ρ.pairs scope scope') :
    Lockstep ρ LikeValue (Eval.callFunction ev scope f vs p)
      (Eval.callFunction ev scope' f' vs' p) := by
  rw [callFunction_eq, callFunction_eq, hf.arity hvs]
  have hchecked : Lockstep ρ (fun _ => Eq) (Eval.lift scope p (f.arity vs))
      (Eval.lift scope' p (f.arity vs)) :=
    lockstep_lift hscope p (likeResult_refl _)
  refine hchecked.bind fun ρ₁ hle _ _ _ => ?_
  exact lockstep_carryOut hev ⟨hf.name, hf.params, hf.body, hle _ _ hf.scope⟩
    (likeValues_mono hvs hle) p

theorem lockstep_callBuiltin (name : String) {vs vs' : List Value}
    (hvs : List.Forall₂ ρ.LikeValue vs vs') (p : Position) (hscope : ρ.pairs scope scope') :
    Lockstep ρ LikeValue (Eval.callBuiltin scope name vs p)
      (Eval.callBuiltin scope' name vs' p) := by
  unfold Eval.callBuiltin
  cases Builtin.ofName? name with
  | none => exact lockstep_raise hscope p _
  | some b =>
    rw [← hvs.length_eq]
    have hchecked : Lockstep ρ (fun _ => Eq)
        (Eval.lift scope p (checkArity b.name b.arity vs.length))
        (Eval.lift scope' p (checkArity b.name b.arity vs.length)) :=
      lockstep_lift hscope p (likeResult_refl _)
    refine hchecked.bind fun ρ₁ hle _ _ _ => ?_
    have hscope₁ := hle _ _ hscope
    have hvs₁ := likeValues_mono hvs hle
    have hlook : Lockstep ρ₁ (fun ρ r r' => LikeResult ρ.LikeValue r.1 r'.1 ∧ r'.2 = r.2)
        (Run.look fun m => b.apply m.clock vs : Eval _)
        (Run.look fun m => b.apply m.clock vs') := by
      intro before before' m m' hm
      have hsame := ρ₁.uniform_likeValue.builtin b m'.clock hvs₁
      refine .value (later_of_size rfl rfl) ?_ hm
      show LikeResult _ (b.apply m.clock vs).1 _ ∧ _ = (b.apply m.clock vs).2
      rw [← hm.clock]
      exact hsame
    refine hlook.bind ?_
    rintro ρ₂ hle' ⟨result, events⟩ ⟨result', events'⟩ ⟨hresult, hevents⟩
    obtain rfl : events' = events := hevents
    have hrecord : Lockstep ρ₂ (fun _ => Eq)
        (Run.modify fun m => events'.foldl Machine.record m : Eval Unit)
        (Run.modify fun m => events'.foldl Machine.record m) :=
      lockstep_modify (fun m => congrArg Forest.size (m.scopes_recordAll events'))
        (fun m => congrArg Forest.size (m.scopes_recordAll events'))
        fun _ _ _ _ hm => hm.recordAll events'
    refine hrecord.bind fun ρ₃ hle'' _ _ _ => ?_
    exact lockstep_lift (hle'' _ _ (hle' _ _ hscope₁)) p (hresult.imp fun _ _ hv => hv.mono hle'')

theorem lockstep_call (hev : ev.Renames) {f f' : Value} (hf : ρ.LikeValue f f')
    {vs vs' : List Value} (hvs : List.Forall₂ ρ.LikeValue vs vs') (p : Position)
    (hscope : ρ.pairs scope scope') :
    Lockstep ρ LikeValue (Eval.call ev scope f vs p) (Eval.call ev scope' f' vs' p) := by
  cases hf with
  | function hf => exact lockstep_callFunction hev hf hvs p hscope
  | builtIn name => exact lockstep_callBuiltin name hvs p hscope
  | number x => exact lockstep_raise hscope p _
  | text s => exact lockstep_raise hscope p _
  | list h => exact lockstep_raise hscope p _

theorem evalOver_renames (hev : ev.Renames) (n : Nat) : Evaluator.Renames (evalOver ev n) := by
  intro ρ scope scope' e hscope
  cases e with
  | number value p => exact lockstep_pure (.number value)
  | text value p => exact lockstep_pure (.text value)
  | list es p =>
    exact (lockstep_all hev es hscope).bind fun _ _ vs vs' hvs => lockstep_pure (.list hvs)
  | name name p => exact lockstep_variable name p hscope
  | assign name value p =>
    refine (hev value hscope).bind fun ρ₁ hle v v' hv => ?_
    refine (lockstep_bindName (hle _ _ hscope) name hv).bind fun ρ₂ hle' _ _ _ => ?_
    exact lockstep_pure (hv.mono hle')
  | binary op l r p =>
    refine (hev l hscope).bind fun ρ₁ hle left left' hleft => ?_
    refine (hev r (hle _ _ hscope)).bind fun ρ₂ hle' right right' hright => ?_
    exact lockstep_lift (hle' _ _ (hle _ _ hscope)) p
      (ρ₂.uniform_likeValue.applyBinary (hleft.mono hle') hright op)
  | unary op operand p =>
    refine (hev operand hscope).bind fun ρ₁ hle v v' hv => ?_
    exact lockstep_lift (hle _ _ hscope) p (ρ₁.uniform_likeValue.applyUnary hv op)
  | ifThen c b r p => exact lockstep_chain hev (.elif c b r) hscope
  | forTo var start stop step b p => exact lockstep_forTo hev n var start stop step b p hscope
  | whileDo c b p => exact lockstep_whileDo hev n c b hscope
  | function name params b p => exact lockstep_define name params b hscope
  | call callee es p =>
    refine (hev callee hscope).bind fun ρ₁ hle f f' hf => ?_
    have hscope₁ := hle _ _ hscope
    refine (lockstep_all hev es hscope₁).bind fun ρ₂ hle' vs vs' hvs => ?_
    exact lockstep_call hev (hf.mono hle') hvs p (hle' _ _ hscope₁)

end evaluator

/-- Evaluation knows scopes by what they hold, not by their numbers. -/
theorem eval_renames (n : Nat) : Evaluator.Renames (eval n) := by
  induction n with
  | zero => exact fun _ _ _ _ _ => lockstep_exhausted
  | succ n ih => exact evalOver_renames ih n

/-! ### Seen from outside -/

namespace Renaming

variable {ρ ρ₁ : Renaming} {roots roots₁ : ScopeId → Prop} {before before' : List String}
  {m m' m₁ m₁' : Machine}

/-- Where all that can be reached is renamed, the renaming of just this is one of machines that
mirror each other. -/
theorem Covers.mirrors (h : ρ.Covers roots m.scopes m'.scopes) (hclock : m'.clock = m.clock) :
    (ρ.only (m.scopes.Reaches roots)).Mirrors (Log.printed m.log) (Log.printed m'.log) m m' := by
  refine ⟨h.grown, h.grown', ?_, ⟨[], by rw [List.append_nil], by rw [List.append_nil]⟩, hclock⟩
  rintro i j ⟨hreach, hpair⟩
  obtain ⟨k, hk, hlike⟩ := h.like i hreach
  obtain rfl := (ρ.unique hk hpair).mp rfl
  refine hlike.transfer ?_ ?_
  · intro p q hparent hpq
    exact ⟨.parent hreach hparent, hpq⟩
  · intro name v f l hbound hholds hl
    exact ⟨.closure hreach hbound hholds, hl⟩

/-- From renamed scopes only renamed scopes can be reached. -/
theorem Mirrors.reaches (h : ρ.Mirrors before before' m m')
    (hroots : ∀ i, roots i → ∃ j, ρ.pairs i j) {i : ScopeId} (hreach : m.scopes.Reaches roots i) :
    ∃ j, ρ.pairs i j := by
  induction hreach with
  | root hroot => exact hroots _ hroot
  | @parent i p _ hparent ih =>
    obtain ⟨j, hj⟩ := ih
    have hrel := (h.scopes i j hj).parent
    rw [hparent] at hrel
    generalize m'.scopes.parent? j = q at hrel
    cases hrel with
    | some hpair => exact ⟨_, hpair⟩
  | @closure i name v f _ hbound hholds ih =>
    obtain ⟨j, hj⟩ := ih
    have hrel := (h.scopes i j hj).own name
    rw [hbound] at hrel
    generalize m'.scopes.own? j name = v' at hrel
    cases hrel with
    | some hv =>
      obtain ⟨f', hf⟩ := LikeValue.of_holds hholds hv
      exact ⟨f'.scope, hf.scope⟩

/-- A renaming of older scopes with what another one says about newer scopes. -/
def join (ρ ρ₁ : Renaming) (n n' : ScopeId) (hold : ∀ i j, ρ.pairs i j → i < n ∧ j < n') :
    Renaming where
  pairs i j := ρ.pairs i j ∨ (ρ₁.pairs i j ∧ n ≤ i ∧ n' ≤ j)
  unique := by
    -- an old pair and a new one differ on both sides
    rintro i i' j j' (h | ⟨h, hi, hj⟩) (h' | ⟨h', hi', hj'⟩)
    · exact ρ.unique h h'
    · obtain ⟨hlt, hlt'⟩ := hold i j h
      constructor <;> intro heq <;> subst heq
      · exact absurd hi' (Nat.not_le_of_lt hlt)
      · exact absurd hj' (Nat.not_le_of_lt hlt')
    · obtain ⟨hlt, hlt'⟩ := hold i' j' h'
      constructor <;> intro heq <;> subst heq
      · exact absurd hi (Nat.not_le_of_lt hlt)
      · exact absurd hj (Nat.not_le_of_lt hlt')
    · exact ρ₁.unique h h'

/-- What is known of the scopes that could be reached at first, at a later moment, as an extension of
the whole renaming. -/
theorem Covers.later (h : ρ.Covers roots m.scopes m'.scopes)
    (hlater : (ρ.only (m.scopes.Reaches roots)).Later m m' ρ₁ m₁ m₁')
    (hm : ρ₁.Mirrors before before' m₁ m₁') :
    ∃ ρ₂, ρ ≤ ρ₂ ∧ ρ₁ ≤ ρ₂ ∧ ∀ roots₁ : ScopeId → Prop,
      (∀ i, roots₁ i → ∃ j, ρ₁.pairs i j) → ρ₂.Covers roots₁ m₁.scopes m₁'.scopes := by
  have hle : ρ₁ ≤ ρ.join ρ₁ m.scopes.size m'.scopes.size h.within := by
    intro i j hpair
    rcases hlater.fresh i j hpair with ⟨-, hold⟩ | ⟨hi, hj⟩
    · exact .inl hold
    · exact .inr ⟨hpair, hi, hj⟩
  refine ⟨ρ.join ρ₁ m.scopes.size m'.scopes.size h.within, fun _ _ => .inl, hle, ?_⟩
  intro roots₁ hroots
  refine ⟨hm.grown, hm.grown', ?_, ?_⟩
  · rintro i j (hpair | ⟨hpair, -, -⟩)
    · obtain ⟨hi, hj⟩ := h.within i j hpair
      exact ⟨Nat.lt_of_lt_of_le hi hlater.size_le, Nat.lt_of_lt_of_le hj hlater.size_le'⟩
    · exact (hm.scopes i j hpair).lt
  -- what can be reached by now is renamed, since what is renamed refers to renamed scopes only
  · intro i hreach
    obtain ⟨j, hpair⟩ := hm.reaches hroots hreach
    exact ⟨j, hle i j hpair, (hm.scopes i j hpair).mono hle⟩

/-- How two computations that were started on `m` and `m'` end if these differ only in the numbers of
the scopes that can be reached from the roots: both at the bound, with the same value, or with the
same fault, which has the same trail. They have printed the same, and what can be reached from the
roots and from the result is the same, up to an extension of the renaming. -/
inductive EndsLike (ρ : Renaming) (roots : ScopeId → Prop) (m m' : Machine) :
    Outcome Fault Value × Machine → Outcome Fault Value × Machine → Prop
  | value {ρ₁ : Renaming} {v v' : Value} {m₁ m₁' : Machine} (extension : ρ ≤ ρ₁)
    (like : ρ₁.LikeValue v v')
    (printed : PrintsLike (Log.printed m.log) (Log.printed m'.log) m₁.log m₁'.log)
    (covers : ρ₁.Covers (fun i => roots i ∨ ∃ f, v.Holds f ∧ f.scope = i) m₁.scopes m₁'.scopes) :
    EndsLike ρ roots m m' (.value v, m₁) (.value v', m₁')
  | error {ρ₁ : Renaming} {f f' : Fault} {m₁ m₁' : Machine} (extension : ρ ≤ ρ₁)
    (like : ρ₁.LikeFault f f') (trail : f'.trail m₁'.scopes = f.trail m₁.scopes)
    (printed : PrintsLike (Log.printed m.log) (Log.printed m'.log) m₁.log m₁'.log)
    (covers : ρ₁.Covers (fun i => roots i ∨ i = f.scope) m₁.scopes m₁'.scopes) :
    EndsLike ρ roots m m' (.error f, m₁) (.error f', m₁')
  | exhausted {m₁ m₁' : Machine} : EndsLike ρ roots m m' (.exhausted, m₁) (.exhausted, m₁')

/-- Computations in lockstep, at the same instant, end alike. -/
theorem Covers.endsLike_of_clock (h : ρ.Covers roots m.scopes m'.scopes)
    (hclock : m'.clock = m.clock) {run run' : Eval Value}
    (hlock : Lockstep (ρ.only (m.scopes.Reaches roots)) LikeValue run run') :
    ρ.EndsLike roots m m' (run m) (run' m') := by
  have hend := hlock _ _ m m' (h.mirrors hclock)
  generalize run m = reply, run' m' = reply' at hend
  have hroot : ∀ {ρ₁ m₁ m₁'}, (ρ.only (m.scopes.Reaches roots)).Later m m' ρ₁ m₁ m₁' →
      ∀ i, roots i → ∃ j, ρ₁.pairs i j := by
    intro ρ₁ m₁ m₁' hlater i hi
    obtain ⟨j, hpair, -⟩ := h.like i (.root hi)
    exact ⟨j, hlater.le i j ⟨.root hi, hpair⟩⟩
  cases hend with
  | @value ρ₁ v v' m₁ m₁' later like mirrors =>
    obtain ⟨ρ₂, hle, hle₁, hcovers⟩ := h.later later mirrors
    refine .value hle (like.mono hle₁) mirrors.printed (hcovers _ ?_)
    rintro i (hi | ⟨f, hf, rfl⟩)
    · exact hroot later i hi
    · obtain ⟨f', hlike⟩ := LikeValue.of_holds hf like
      exact ⟨f'.scope, hlike.scope⟩
  | @error ρ₁ f f' m₁ m₁' later like mirrors =>
    obtain ⟨ρ₂, hle, hle₁, hcovers⟩ := h.later later mirrors
    refine .error hle ⟨like.cause, like.position, hle₁ _ _ like.scope⟩ (like.trail mirrors)
      mirrors.printed (hcovers _ ?_)
    rintro i (hi | rfl)
    · exact hroot later i hi
    · exact ⟨f'.scope, like.scope⟩
  | exhausted => exact .exhausted

/-- Computations in lockstep end alike, at the same instant or if the instant plays no part. -/
theorem Covers.endsLike (h : ρ.Covers roots m.scopes m'.scopes) {run run' : Eval Value}
    (htime : m'.clock = m.clock ∨ Timeless run m)
    (hlock : Lockstep (ρ.only (m.scopes.Reaches roots)) LikeValue run run') :
    ρ.EndsLike roots m m' (run m) (run' m') := by
  rcases htime with hclock | htimeless
  · exact h.endsLike_of_clock hclock hlock
  · -- the first computation may as well be started when the second one is
    have hcovers : ρ.Covers roots (m.atInstant m'.clock).scopes m'.scopes := h
    have hend := hcovers.endsLike_of_clock rfl hlock
    rw [htimeless m'.clock] at hend
    generalize run m = reply, run' m' = reply' at hend
    obtain ⟨outcome, m₁⟩ := reply
    cases hend with
    | value extension like printed covers => exact .value extension like printed covers
    | error extension like trail printed covers =>
      exact .error extension like trail printed covers
    | exhausted => exact .exhausted

end Renaming

/-- The scopes from which a call starts: that of the function and those of functions among the
arguments. The caller's is not one of them. -/
def callRoots (f : Closure) (arguments : List Value) (i : ScopeId) : Prop :=
  i = f.scope ∨ ∃ v ∈ arguments, ∃ g, v.Holds g ∧ g.scope = i

/-- **Only what is in scope matters.** Take two stores and a renaming of scopes under which all that
can be reached from a scope in the first is the same in the second. Then every expression, evaluated
in this scope and in the one it is renamed to, ends alike, at the same instant or, if it does not ask
for the time, at any two. If all that can be reached from a function and its arguments is the same,
then a call ends alike whatever the callers are, except that a wrong number of arguments is blamed on
the caller; and in one store, the call itself is the same. -/
theorem evaluation_is_lexical (ρ : Renaming) (n : Nat) (m m' : Machine) :
    (∀ scope scope' e, ρ.pairs scope scope' → ρ.Covers (· = scope) m.scopes m'.scopes →
      m'.clock = m.clock ∨ Timeless (eval n scope e) m →
      ρ.EndsLike (· = scope) m m' (eval n scope e m) (eval n scope' e m')) ∧
    (∀ f f' vs vs' p caller caller', ρ.LikeClosure f f' → List.Forall₂ ρ.LikeValue vs vs' →
      ρ.Covers (callRoots f vs) m.scopes m'.scopes →
      m'.clock = m.clock ∨ Timeless (Eval.callFunction (eval n) caller f vs p) m →
      (∃ cause, Eval.callFunction (eval n) caller f vs p m = (.error ⟨cause, p, caller⟩, m) ∧
        Eval.callFunction (eval n) caller' f' vs' p m' = (.error ⟨cause, p, caller'⟩, m')) ∨
      ρ.EndsLike (callRoots f vs) m m' (Eval.callFunction (eval n) caller f vs p m)
        (Eval.callFunction (eval n) caller' f' vs' p m')) ∧
    ∀ f vs p caller caller',
      (∃ cause, Eval.callFunction (eval n) caller f vs p m = (.error ⟨cause, p, caller⟩, m) ∧
        Eval.callFunction (eval n) caller' f vs p m = (.error ⟨cause, p, caller'⟩, m)) ∨
      Eval.callFunction (eval n) caller f vs p m = Eval.callFunction (eval n) caller' f vs p m := by
  refine ⟨?_, ?_, ?_⟩
  · intro scope scope' e hscope hcovers htime
    exact hcovers.endsLike htime (eval_renames n e ⟨.root rfl, hscope⟩)
  · intro f f' vs vs' p caller caller' hf hvs hcovers htime
    rw [callFunction_eq] at htime ⊢
    rw [callFunction_eq, hf.arity hvs]
    cases harity : f.arity vs with
    | error cause => exact .inl ⟨cause, rfl, rfl⟩
    | ok _ =>
      right
      -- the function and the arguments are renamed by what can be reached from them
      have hf₀ : (ρ.only (m.scopes.Reaches (callRoots f vs))).LikeClosure f f' :=
        ⟨hf.name, hf.params, hf.body, .root (.inl rfl), hf.scope⟩
      have hvs₀ : List.Forall₂ (ρ.only (m.scopes.Reaches (callRoots f vs))).LikeValue vs vs' := by
        refine LikeValue.transferAll vs vs' hvs ?_
        intro v hv g j hg hpair
        exact ⟨.root (.inr ⟨v, hv, g, hg, rfl⟩), hpair⟩
      rw [harity] at htime
      exact hcovers.endsLike htime (lockstep_carryOut (eval_renames n) hf₀ hvs₀ p)
  · intro f vs p caller caller'
    rw [callFunction_eq, callFunction_eq]
    cases f.arity vs with
    | error cause => exact .inl ⟨cause, rfl, rfl⟩
    | ok _ => exact .inr rfl

/-- A scope that binds `x` and `PRINT`. -/
def loneScope : Machine :=
  ⟨⟨#[⟨⟨"<program>", none⟩, none, [("x", .text "hi"), ("PRINT", .builtIn "PRINT")]⟩]⟩, [], ⟨0, 0⟩⟩

/-- The same scope under another number and at another instant, after one that binds `x` to something
else. -/
def laterScope : Machine :=
  ⟨⟨#[⟨⟨"<other>", none⟩, none, [("x", .text "ho")]⟩,
    ⟨⟨"<program>", none⟩, none, [("PRINT", .builtIn "PRINT"), ("x", .text "hi")]⟩]⟩, [], ⟨1, 0⟩⟩

/-- The function `FUNCTION f() => PRINT(x)` in a scope. -/
def printX (scope : ScopeId) : Closure :=
  ⟨some "f", [], .inline (.call (.name "PRINT" .start) [.name "x" .start] .start), scope⟩

/-- The first scope becomes the second. -/
def zeroToOne : Renaming where
  pairs i j := i = 0 ∧ j = 1
  unique := by
    rintro i i' j j' ⟨rfl, rfl⟩ ⟨rfl, rfl⟩
    exact ⟨fun _ => rfl, fun _ => rfl⟩

theorem zeroToOne_covers :
    zeroToOne.Covers (callRoots (printX 0) []) loneScope.scopes laterScope.scopes := by
  have hlike : zeroToOne.LikeAt loneScope.scopes laterScope.scopes 0 1 := by
    refine ⟨_, _, rfl, rfl, rfl, .none, ?_⟩
    intro name
    show Option.Rel zeroToOne.LikeValue
      (Bindings.get? [("x", Value.text "hi"), ("PRINT", .builtIn "PRINT")] name)
      (Bindings.get? [("PRINT", Value.builtIn "PRINT"), ("x", .text "hi")] name)
    simp only [Bindings.get?_cons, Bindings.get?_nil]
    by_cases hx : "x" = name
    · subst hx
      exact .some (.text "hi")
    · by_cases hprint : "PRINT" = name
      · subst hprint
        exact .some (.builtIn "PRINT")
      · rw [if_neg hx, if_neg hprint, if_neg hprint, if_neg hx]
        exact .none
  -- nothing else can be reached: there are no parents, and no functions are bound
  have hreach : ∀ i, loneScope.scopes.Reaches (callRoots (printX 0) []) i → i = 0 := by
    intro i h
    induction h with
    | root hroot =>
      rcases hroot with rfl | ⟨v, hv, -⟩
      · rfl
      · cases hv
    | parent _ hparent ih =>
      subst ih
      cases hparent
    | @closure i name v f _ hbound hholds ih =>
      subst ih
      have htable : Bindings.get? [("x", Value.text "hi"), ("PRINT", .builtIn "PRINT")] name =
        some v := hbound
      simp only [Bindings.get?_cons, Bindings.get?_nil] at htable
      split at htable
      · cases htable
        cases hholds
      · split at htable
        · cases htable
          cases hholds
        · cases htable
  refine ⟨?_, ?_, ?_, ?_⟩
  · intro i p hparent
    match i with
    | 0 => cases hparent
    | i + 1 => cases hparent
  · intro i p hparent
    match i with
    | 0 => cases hparent
    | 1 => cases hparent
    | i + 2 => cases hparent
  · rintro i j ⟨rfl, rfl⟩
    exact hlike.lt
  · intro i h
    obtain rfl := hreach i h
    exact ⟨1, ⟨rfl, rfl⟩, hlike⟩

/-- The function prints what `x` is where it was defined, also if it is called from a scope in which
`x` is something else. -/
theorem callers_scope_not_visible :
    zeroToOne.Covers (callRoots (printX 0) []) loneScope.scopes laterScope.scopes ∧
      laterScope.lookup 0 "x" = some (.text "ho") ∧
      ∃ v, (Eval.callFunction (eval 9) 0 (printX 1) [] .start laterScope).1 = .value v ∧
        Log.printed (Eval.callFunction (eval 9) 0 (printX 1) [] .start laterScope).2.log =
          ["hi"] := by
  refine ⟨zeroToOne_covers, rfl, ?_⟩
  have hprinted : Log.printed
      (Eval.callFunction (eval 9) 0 (printX 0) [] .start loneScope).2.log = ["hi"] := rfl
  have hvalue : (Eval.callFunction (eval 9) 0 (printX 0) [] .start loneScope).1 =
    .value (.text "hi") := rfl
  have htimeless : Timeless (Eval.callFunction (eval 9) 0 (printX 0) [] .start) loneScope :=
    fun _ => rfl
  obtain ⟨-, hcalls, -⟩ := evaluation_is_lexical zeroToOne 9 loneScope laterScope
  have hcall := hcalls (printX 0) (printX 1) [] [] .start 0 0 ⟨rfl, rfl, rfl, rfl, rfl⟩ .nil
    zeroToOne_covers (.inr htimeless)
  generalize Eval.callFunction (eval 9) 0 (printX 0) [] .start loneScope = reply,
    Eval.callFunction (eval 9) 0 (printX 1) [] .start laterScope = reply' at *
  rcases hcall with ⟨cause, rfl, -⟩ | hends
  · cases hvalue
  · cases hends with
    | value _ _ hlines =>
      obtain ⟨lines, hlines, hlines'⟩ := hlines
      refine ⟨_, rfl, ?_⟩
      rw [hlines', ← hprinted, hlines]
      rfl
    | error => cases hvalue
    | exhausted => cases hvalue

end LineScript
