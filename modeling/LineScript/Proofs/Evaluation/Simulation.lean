import LineScript.Proofs.Evaluation.Fuel
import LineScript.Proofs.Evaluation.Likeness

/-!
# Like code does the same

Expressions that are alike, evaluated in the same scope of machines that are alike, end alike: both
or neither end before every bound, with like values or like faults, and they leave like machines.

  * `Tends run s reply`: with every bound that is large enough, `run` ends with this reply.
  * `LikeMachine`: the scopes bind the same names to like values, and the same lines were printed.
  * `Simulates rel run run'`: where `run` ends, `run'` ends in a like way with a large enough bound.

**Key idea.** A block takes a level more than its one expression, and so does a conditional inside a
branch. So the two sides run with bounds of their own: a fixed one on the left, on which the
induction is, and one on the right that grows as needed.
-/

namespace LineScript

open Run

/-! ### Large bounds -/

section tends

variable {σ ε α β : Type} {run run' : Nat → Run σ ε α} {s t : σ}

/-- With every bound that is large enough, the computation ends with this reply. -/
def Tends (run : Nat → Run σ ε α) (s : σ) (reply : Outcome ε α × σ) : Prop :=
  ∃ least, ∀ n, least ≤ n → run n s = reply

theorem Tends.of_eq {reply : Outcome ε α × σ} (h : ∀ n, run n s = reply) : Tends run s reply :=
  ⟨0, fun n _ => h n⟩

theorem Tends.congr {reply : Outcome ε α × σ} (h : Tends run s reply) (bound : Nat)
    (hsame : ∀ n, bound ≤ n → run' n s = run n s) : Tends run' s reply := by
  obtain ⟨least, hleast⟩ := h
  refine ⟨max least bound, ?_⟩
  intro n hn
  rw [hsame n (by omega)]
  exact hleast n (by omega)

theorem Tends.bind {next : Nat → α → Run σ ε β} {a : α} {reply : Outcome ε β × σ}
    (h : Tends run s (.value a, t)) (hnext : Tends (fun n => next n a) t reply) :
    Tends (fun n => run n >>= next n) s reply := by
  obtain ⟨least, hleast⟩ := h
  obtain ⟨least', hleast'⟩ := hnext
  refine ⟨max least least', ?_⟩
  intro n hn
  show (run n >>= next n) s = reply
  rw [Run.bind_apply, hleast n (by omega)]
  exact hleast' n (by omega)

theorem Tends.bind_error {next : Nat → α → Run σ ε β} {e : ε} (h : Tends run s (.error e, t)) :
    Tends (fun n => run n >>= next n) s (.error e, t) := by
  obtain ⟨least, hleast⟩ := h
  refine ⟨least, ?_⟩
  intro n hn
  show (run n >>= next n) s = _
  rw [Run.bind_apply, hleast n hn]

end tends

theorem tends_eval {scope : ScopeId} {e : Expr} {m : Machine} {reply : Outcome Fault Value × Machine}
    (h : Tends (fun n => evalOver (eval n) n scope e) m reply) :
    Tends (fun n => eval n scope e) m reply := by
  obtain ⟨least, hleast⟩ := h
  refine ⟨least + 1, ?_⟩
  intro n hn
  obtain ⟨n, rfl⟩ : ∃ k, n = k + 1 := ⟨n - 1, by omega⟩
  exact hleast n (Nat.le_of_succ_le_succ hn)

/-- A body with one expression is that expression, one level deeper if it is a block. -/
theorem body_of_just {e : Expr} {b : Body} (h : b.Just e) (n : Nat) (scope : ScopeId) :
    Eval.body (eval (n + 1)) scope b = eval (n + 1) scope e ∨
      Eval.body (eval (n + 1)) scope b = eval n scope e := by
  cases h with
  | inline =>
    left
    funext m
    show (eval (n + 1) scope e >>= fun v => pure v) m = _
    rw [Run.bind_apply]
    rcases eval (n + 1) scope e m with ⟨v | f | _, t⟩ <;> rfl
  | block p =>
    right
    funext m
    show (((eval n scope e >>= fun v => pure [v]) >>= fun vs => pure (Value.list vs)) >>= fun v =>
      pure (Body.yield (.block (.list [e] p)) v)) m = _
    rw [Run.bind_apply, Run.bind_apply, Run.bind_apply]
    rcases eval n scope e m with ⟨v | f | _, t⟩ <;> rfl

theorem tends_body {e : Expr} {b : Body} (h : b.Just e) {scope : ScopeId} {m : Machine}
    {reply : Outcome Fault Value × Machine} (htends : Tends (fun n => eval n scope e) m reply) :
    Tends (fun n => Eval.body (eval n) scope b) m reply := by
  obtain ⟨least, hleast⟩ := htends
  refine ⟨least + 1, ?_⟩
  intro n hn
  obtain ⟨n, rfl⟩ : ∃ k, n = k + 1 := ⟨n - 1, by omega⟩
  show Eval.body (eval (n + 1)) scope b m = reply
  rcases body_of_just h n scope with hbody | hbody
  · rw [hbody]
    exact hleast (n + 1) (by omega)
  · rw [hbody]
    exact hleast n (by omega)

namespace Likeness

variable {K : Likeness}

/-! ### Machines -/

/-- Scopes with the same names and parents, entered from like places, that bind the same names to
like values. -/
structure LikeScope (K : Likeness) (s s' : Scope Frame Value) : Prop where
  /-- The names are the same. -/
  displayName : s'.label.displayName = s.label.displayName
  /-- The scopes were entered from like places. -/
  entry : Option.Rel K.place s.label.entry s'.label.entry
  /-- The parents are the same. -/
  parent : s'.parent = s.parent
  /-- The same names are bound to like values. -/
  bindings : List.Forall₂ (fun x x' => x'.1 = x.1 ∧ K.LikeValue x.2 x'.2) s.bindings s'.bindings

/-- Machines with like scopes that have printed the same. -/
structure LikeMachine (K : Likeness) (m m' : Machine) : Prop where
  /-- The scopes are alike, one by one. -/
  scopes : ∀ i : Nat, Option.Rel K.LikeScope m.scopes.scopes[i]? m'.scopes.scopes[i]?
  /-- The printed lines are the same. -/
  printed : Log.printed m'.log = Log.printed m.log
  /-- The instants are the same. -/
  clock : m'.clock = m.clock

/-- Faults of the same cause in the same scope, at like places. -/
structure LikeFault (K : Likeness) (f f' : Fault) : Prop where
  /-- The causes are the same. -/
  cause : f'.cause = f.cause
  /-- The places are alike. -/
  position : K.place f.position f'.position
  /-- The scopes are the same. -/
  scope : f'.scope = f.scope

/-- Where like places are the same, like faults are. -/
theorem LikeFault.eq {f f' : Fault} (h : K.LikeFault f f')
    (hplace : ∀ {p p'}, K.place p p' → p' = p) : f' = f := by
  obtain ⟨cause, position, scope⟩ := f
  obtain ⟨cause', position', scope'⟩ := f'
  obtain ⟨rfl, hposition, rfl⟩ := h
  rw [show position' = position from hplace hposition]

variable {m m' : Machine}

theorem LikeMachine.size (h : K.LikeMachine m m') : m'.scopes.size = m.scopes.size := by
  have hsame : ∀ i : Nat, m'.scopes.scopes[i]? = none ↔ m.scopes.scopes[i]? = none := by
    intro i
    have hi := h.scopes i
    generalize m.scopes.scopes[i]? = s, m'.scopes.scopes[i]? = s' at hi
    cases hi <;> simp
  simp only [Array.getElem?_eq_none_iff] at hsame
  have h₁ := (hsame m.scopes.size).mpr (Nat.le_refl _)
  have h₂ := (hsame m'.scopes.size).mp (Nat.le_refl _)
  exact Nat.le_antisymm h₁ h₂

theorem like_get? {table table' : Bindings Value}
    (h : List.Forall₂ (fun x x' => x'.1 = x.1 ∧ K.LikeValue x.2 x'.2) table table')
    (name : String) : Option.Rel K.LikeValue (table.get? name) (table'.get? name) := by
  induction h with
  | nil => exact .none
  | @cons x x' _ _ hx _ ih =>
    rw [Bindings.get?_cons, Bindings.get?_cons, hx.1]
    split
    · exact .some hx.2
    · exact ih

theorem like_remove {table table' : Bindings Value}
    (h : List.Forall₂ (fun x x' => x'.1 = x.1 ∧ K.LikeValue x.2 x'.2) table table')
    (name : String) :
    List.Forall₂ (fun x x' => x'.1 = x.1 ∧ K.LikeValue x.2 x'.2) (table.remove name)
      (table'.remove name) := by
  induction h with
  | nil => exact .nil
  | @cons x x' _ _ hx _ ih =>
    unfold Bindings.remove at ih ⊢
    rw [List.filter_cons, List.filter_cons, hx.1]
    split
    · exact .cons hx ih
    · exact ih

theorem LikeMachine.own? (h : K.LikeMachine m m') (i : ScopeId) (name : String) :
    Option.Rel K.LikeValue (m.scopes.own? i name) (m'.scopes.own? i name) := by
  have hi := h.scopes i
  rw [Forest.own?, Forest.own?]
  generalize m.scopes.scopes[i]? = s, m'.scopes.scopes[i]? = s' at hi
  cases hi with
  | none => exact .none
  | some hs => exact like_get? hs.bindings name

theorem LikeMachine.parent? (h : K.LikeMachine m m') (i : ScopeId) :
    m'.scopes.parent? i = m.scopes.parent? i := by
  have hi := h.scopes i
  rw [Forest.parent?, Forest.parent?]
  generalize m.scopes.scopes[i]? = s, m'.scopes.scopes[i]? = s' at hi
  cases hi with
  | none => rfl
  | some hs => exact hs.parent

theorem LikeMachine.lookup (h : K.LikeMachine m m') (scope : ScopeId) (name : String) :
    Option.Rel K.LikeValue (m.lookup scope name) (m'.lookup scope name) := by
  have hupTo : ∀ limit i, Option.Rel K.LikeValue (m.scopes.lookupUpTo name limit i)
      (m'.scopes.lookupUpTo name limit i) := by
    intro limit
    induction limit with
    | zero => exact fun _ => .none
    | succ limit ih =>
      intro i
      have hown := h.own? i name
      rw [Forest.lookupUpTo, Forest.lookupUpTo, h.parent? i]
      generalize m.scopes.own? i name = v, m'.scopes.own? i name = v' at hown
      cases hown with
      | some hv => exact .some hv
      | none =>
        cases m.scopes.parent? i with
        | some p => exact ih p
        | none => exact .none
  exact hupTo _ scope

theorem LikeMachine.set (h : K.LikeMachine m m') (scope : ScopeId) (name : String) {v v' : Value}
    (hv : K.LikeValue v v') : K.LikeMachine (m.set scope name v) (m'.set scope name v') := by
  refine ⟨?_, h.printed, h.clock⟩
  intro i
  have hi := h.scopes i
  simp only [Machine.set, Forest.set, Array.getElem?_modify]
  generalize m.scopes.scopes[i]? = s, m'.scopes.scopes[i]? = s' at hi
  split
  · cases hi with
    | none => exact .none
    | some hs =>
      refine .some ⟨hs.displayName, hs.entry, hs.parent, ?_⟩
      exact .cons ⟨rfl, hv⟩ (like_remove hs.bindings name)
  · exact hi

theorem LikeMachine.setAll (h : K.LikeMachine m m') (scope : ScopeId) (names : List String)
    {vs vs' : List Value} (hvs : List.Forall₂ K.LikeValue vs vs') :
    K.LikeMachine (m.setAll scope (names.zip vs)) (m'.setAll scope (names.zip vs')) := by
  induction names generalizing m m' vs vs' with
  | nil => exact h
  | cons name names ih =>
    cases hvs with
    | nil => exact h
    | cons hv hvs => exact ih (h.set scope name hv) hvs

theorem LikeMachine.enter (h : K.LikeMachine m m') (parent : ScopeId) (name : String)
    {p p' : Position} (hp : K.place p p') :
    K.LikeMachine (m.enter parent name p).2 (m'.enter parent name p').2 := by
  refine ⟨?_, h.printed, h.clock⟩
  intro i
  have hi := h.scopes i
  have hsize : m'.scopes.scopes.size = m.scopes.scopes.size := h.size
  simp only [Machine.enter, Forest.add, Array.getElem?_push, hsize]
  split
  · exact .some ⟨rfl, .some hp, rfl, .nil⟩
  · exact hi

/-- Entries that print the same keep machines alike. -/
theorem LikeMachine.record (h : K.LikeMachine m m') {event event' : Event}
    (hline : event'.line? = event.line?) : K.LikeMachine (m.record event) (m'.record event') := by
  refine ⟨h.scopes, ?_, h.clock⟩
  have hprinted := h.printed
  simp only [Log.printed, Log.inOrder, Machine.record, List.reverse_cons, List.filterMap_append,
    List.filterMap_cons, List.filterMap_nil, hline] at hprinted ⊢
  rw [hprinted]

theorem LikeMachine.recordAll (h : K.LikeMachine m m') (events : List Event) :
    K.LikeMachine (events.foldl Machine.record m) (events.foldl Machine.record m') := by
  induction events generalizing m m' with
  | nil => exact h
  | cons event events ih => exact ih (h.record rfl)

theorem likeMachine_refl (hbody : ∀ b, K.body b b) (hplace : ∀ p, K.place p p) (m : Machine) :
    K.LikeMachine m m := by
  refine ⟨?_, rfl, rfl⟩
  intro i
  cases m.scopes.scopes[i]? with
  | none => exact .none
  | some s =>
    refine .some ⟨rfl, ?_, rfl, ?_⟩
    · cases s.label.entry with
      | none => exact .none
      | some p => exact .some (hplace p)
    · exact List.forall₂_same.mpr fun x _ => ⟨rfl, likeValue_refl hbody x.2⟩

/-! ### Trails -/

theorem LikeMachine.lineage (h : K.LikeMachine m m') (i : ScopeId) :
    m'.scopes.lineage i = m.scopes.lineage i := by
  have hupTo : ∀ limit i, m'.scopes.lineageUpTo limit i = m.scopes.lineageUpTo limit i := by
    intro limit
    induction limit with
    | zero => exact fun _ => rfl
    | succ limit ih =>
      intro i
      rw [Forest.lineageUpTo, Forest.lineageUpTo, h.parent? i]
      cases m.scopes.parent? i with
      | some p => simp only [ih p]
      | none => rfl
  exact hupTo _ i

/-- Frames of the same name, entered from like places. -/
def LikeFrame (K : Likeness) (frame frame' : Frame) : Prop :=
  frame'.displayName = frame.displayName ∧ Option.Rel K.place frame.entry frame'.entry

theorem LikeMachine.labels (h : K.LikeMachine m m') (is : List ScopeId) :
    List.Forall₂ K.LikeFrame (is.filterMap m.scopes.label?) (is.filterMap m'.scopes.label?) := by
  induction is with
  | nil => exact .nil
  | cons i is ih =>
    have hi := h.scopes i
    simp only [List.filterMap_cons, Forest.label?]
    generalize m.scopes.scopes[i]? = s, m'.scopes.scopes[i]? = s' at hi
    cases hi with
    | none => exact ih
    | some hs => exact .cons ⟨hs.displayName, hs.entry⟩ ih

theorem like_trailFrom {frames frames' : List Frame} (h : List.Forall₂ K.LikeFrame frames frames')
    {p p' : Position} (hp : K.place p p') :
    List.Forall₂ (fun x x' => x'.1 = x.1 ∧ K.place x.2 x'.2) (Fault.trailFrom p frames)
      (Fault.trailFrom p' frames') := by
  induction h generalizing p p' with
  | nil => exact .nil
  | @cons frame frame' _ _ hframe _ ih =>
    refine .cons ⟨hframe.1, hp⟩ (ih ?_)
    have hentry := hframe.2
    generalize frame.entry = entry, frame'.entry = entry' at hentry
    cases hentry with
    | some hq => exact hq
    | none => exact hp

/-- Like faults went through scopes of the same names, at like places. -/
theorem LikeFault.trail {f f' : Fault} (h : K.LikeFault f f') (hm : K.LikeMachine m m') :
    List.Forall₂ (fun x x' => x'.1 = x.1 ∧ K.place x.2 x'.2) (f.trail m.scopes)
      (f'.trail m'.scopes) := by
  rw [Fault.trail, Fault.trail, h.scope, hm.lineage]
  exact like_trailFrom (hm.labels _) h.position

/-! ### Computations -/

/-- How a computation and a like one end: with related values or with like faults, and in like
machines. -/
inductive LikeReply (K : Likeness) {α β : Type} (rel : α → β → Prop) :
    Outcome Fault α × Machine → Outcome Fault β × Machine → Prop
  | value {a : α} {b : β} {m m' : Machine} (h : rel a b) (hm : K.LikeMachine m m') :
    LikeReply K rel (.value a, m) (.value b, m')
  | error {f f' : Fault} {m m' : Machine} (h : K.LikeFault f f') (hm : K.LikeMachine m m') :
    LikeReply K rel (.error f, m) (.error f', m')

/-- On like machines, where `run` ends, `run'` ends in a like way if its bound is large enough. -/
def Simulates (K : Likeness) {α β : Type} (rel : α → β → Prop) (run : Eval α)
    (run' : Nat → Eval β) : Prop :=
  ∀ m m', K.LikeMachine m m' →
    (run m).1 = .exhausted ∨ ∃ reply, Tends run' m' reply ∧ K.LikeReply rel (run m) reply

section computations

variable {α β γ δ : Type} {rel : α → β → Prop} {rel' : γ → δ → Prop}

theorem simulates_exhausted (run' : Nat → Eval β) :
    K.Simulates rel (Run.exhausted : Eval α) run' :=
  fun _ _ _ => .inl rfl

theorem simulates_pure {a : α} {b : β} (h : rel a b) :
    K.Simulates rel (pure a : Eval α) fun _ => pure b :=
  fun _ _ hm => .inr ⟨_, .of_eq fun _ => rfl, .value h hm⟩

theorem simulates_raise (scope : ScopeId) {p p' : Position} (hp : K.place p p') (cause : Cause) :
    K.Simulates rel (Eval.raise scope p cause : Eval α) fun _ => Eval.raise scope p' cause :=
  fun _ _ hm => .inr ⟨_, .of_eq fun _ => rfl, .error ⟨rfl, hp, rfl⟩ hm⟩

theorem simulates_lift (scope : ScopeId) {p p' : Position} (hp : K.place p p')
    {r : Except Cause α} {r' : Except Cause β} (h : LikeResult rel r r') :
    K.Simulates rel (Eval.lift scope p r) fun _ => Eval.lift scope p' r' := by
  cases h with
  | ok h => exact simulates_pure h
  | error cause => exact simulates_raise scope hp cause

/-- A change that keeps machines alike. -/
theorem simulates_modify {f f' : Machine → Machine}
    (h : ∀ m m', K.LikeMachine m m' → K.LikeMachine (f m) (f' m')) :
    K.Simulates Eq (Run.modify f : Eval Unit) fun _ => Run.modify f' :=
  fun m m' hm => .inr ⟨_, .of_eq fun _ => rfl, .value rfl (h m m' hm)⟩

theorem simulates_record (event event' : Event) (hline : event'.line? = event.line?) :
    K.Simulates Eq (Eval.record event) fun _ => Eval.record event' :=
  simulates_modify fun _ _ hm => hm.record hline

theorem simulates_bindName (scope : ScopeId) (name : String) {v v' : Value}
    (hv : K.LikeValue v v') :
    K.Simulates Eq (Eval.bindName scope name v) fun _ => Eval.bindName scope name v' :=
  simulates_modify fun _ _ hm => hm.set scope name hv

theorem Simulates.bind {run : Eval α} {run' : Nat → Eval β} {next : α → Eval γ}
    {next' : Nat → β → Eval δ} (h : K.Simulates rel run run')
    (hnext : ∀ a b, rel a b → K.Simulates rel' (next a) fun n => next' n b) :
    K.Simulates rel' (run >>= next) fun n => run' n >>= next' n := by
  intro m m' hm
  obtain hbound | ⟨reply, htends, hreply⟩ := h m m' hm
  · left
    rw [Run.bind_apply]
    rcases hr : run m with ⟨a | e | _, t⟩ <;> rw [hr] at hbound <;> cases hbound
  rcases hr : run m with ⟨a | e | _, t⟩ <;> rw [hr] at hreply <;> cases hreply
  · next b t' hab ht =>
    obtain hbound | ⟨reply, htends', hreply⟩ := hnext a b hab t t' ht
    · left
      rw [Run.bind_apply, hr]
      exact hbound
    · right
      refine ⟨reply, htends.bind htends', ?_⟩
      rw [Run.bind_apply, hr]
      exact hreply
  · next f' t' hf ht =>
    right
    refine ⟨_, htends.bind_error, ?_⟩
    rw [Run.bind_apply, hr]
    exact .error hf ht

/-- The right computation may be replaced by one that ends whenever it does. -/
theorem Simulates.right {run : Eval α} {run' run'' : Nat → Eval β} (h : K.Simulates rel run run')
    (hright : ∀ m reply, Tends run' m reply → Tends run'' m reply) : K.Simulates rel run run'' := by
  intro m m' hm
  obtain hbound | ⟨reply, htends, hreply⟩ := h m m' hm
  · exact .inl hbound
  · exact .inr ⟨reply, hright m' reply htends, hreply⟩

end computations

/-! ### The evaluator

The left evaluator has a bound, and the right one a bound that is large enough. -/

/-- With the bound `n` on the left, evaluation of like expressions is simulated. -/
def Follows (K : Likeness) (n : Nat) : Prop :=
  ∀ ⦃scope : ScopeId⦄ ⦃e e' : Expr⦄, K.expr e e' →
    K.Simulates K.LikeValue (eval n scope e) fun k => eval k scope e'

section evaluator

variable {n : Nat} {scope : ScopeId}

theorem simulates_all (hev : K.Follows n) {es es' : List Expr} (hes : List.Forall₂ K.expr es es') :
    K.Simulates (List.Forall₂ K.LikeValue) (Eval.all (eval n) scope es)
      fun k => Eval.all (eval k) scope es' := by
  induction hes with
  | nil => exact simulates_pure .nil
  | cons he _ ih =>
    refine (hev he).bind fun v v' hv => ?_
    exact ih.bind fun vs vs' hvs => simulates_pure (.cons hv hvs)

theorem simulates_condition (hev : K.Follows n) {e e' : Expr} (he : K.expr e e') :
    K.Simulates Eq (Eval.condition (eval n) scope e) fun k => Eval.condition (eval k) scope e' := by
  refine (hev he).bind fun v v' hv => ?_
  rw [K.uniform_likeValue.condition hv]
  exact simulates_lift scope (position he) (likeResult_refl _)

theorem simulates_bound (hev : K.Follows n) {e e' : Expr} (he : K.expr e e') (operation : String) :
    K.Simulates Eq (Eval.bound (eval n) scope e operation)
      fun k => Eval.bound (eval k) scope e' operation := by
  refine (hev he).bind fun v v' hv => ?_
  rw [K.uniform_likeValue.toNumber hv]
  exact simulates_lift scope (position he) (likeResult_refl _)

/-- A body with one expression on the left: a block is one level deeper. -/
theorem simulates_of_just {e : Expr} {b : Body} {run' : Nat → Eval Value} (hb : b.Just e)
    (hsim : ∀ k ≤ n, K.Simulates K.LikeValue (eval k scope e) run') :
    K.Simulates K.LikeValue (Eval.body (eval n) scope b) run' := by
  cases n with
  | zero =>
    cases hb with
    | inline => exact simulates_exhausted _
    | block p => exact simulates_exhausted _
  | succ n =>
    rcases body_of_just hb n scope with hbody | hbody
    · rw [hbody]
      exact hsim (n + 1) (Nat.le_refl _)
    · rw [hbody]
      exact hsim n (Nat.le_succ n)

theorem simulates_body (hev : ∀ k ≤ n, K.Follows k) {b b' : Body} (hb : K.body b b') :
    K.Simulates K.LikeValue (Eval.body (eval n) scope b) fun k => Eval.body (eval k) scope b' := by
  cases K.layout hb with
  | block he =>
    exact (hev n (Nat.le_refl n) he).bind fun v v' hv =>
      simulates_pure (K.uniform_likeValue.yield hv _ _)
  | @just e e' _ _ hb hb' he =>
    refine simulates_of_just hb fun k hk => ?_
    exact (hev k hk he).right fun m reply htends => tends_body hb' htends

theorem simulates_elif (hev : ∀ k ≤ n, K.Follows k) {c c' : Expr} {b b' : Body} {r r' : Chain}
    (hc : K.expr c c') (hb : K.body b b')
    (hr : K.Simulates K.LikeValue (Eval.chain (eval n) scope r)
      fun k => Eval.chain (eval k) scope r') :
    K.Simulates K.LikeValue (Eval.chain (eval n) scope (.elif c b r))
      fun k => Eval.chain (eval k) scope (.elif c' b' r') := by
  refine (simulates_condition (hev n (Nat.le_refl n)) hc).bind fun holds holds' hsame => ?_
  subst hsame
  cases holds with
  | true => exact simulates_body hev hb
  | false => exact hr

theorem simulates_chain (hev : ∀ k ≤ n, K.Follows k) {r r' : Chain} (hr : LikeChain K.expr K.body r r') :
    K.Simulates K.LikeValue (Eval.chain (eval n) scope r)
      fun k => Eval.chain (eval k) scope r' := by
  induction hr generalizing n with
  | done => exact simulates_pure (.number _)
  | otherwise hb => exact simulates_body hev hb
  | elif hc hb _ ih => exact simulates_elif hev hc hb (ih hev)
  | @nested c c' b b' r r' last p hc hb _ hlast ih =>
    refine (simulates_elif hev hc hb (ih hev)).right fun m reply htends => ?_
    exact tends_body hlast (tends_eval htends)
  | @unnested c c' b b' r r' last p hc hb _ hlast ih =>
    -- the conditional on the left is evaluated with what is left of the bound
    refine simulates_of_just hlast fun k hk => ?_
    cases k with
    | zero => exact simulates_exhausted _
    | succ k =>
      have hev' : ∀ j ≤ k, K.Follows j := fun j hj => hev j (by omega)
      exact simulates_elif hev' hc hb (ih hev')

theorem simulates_variable (name : String) {p p' : Position} (hp : K.place p p') :
    K.Simulates K.LikeValue (Eval.variable_ scope name p)
      fun _ => Eval.variable_ scope name p' := by
  have hlook : K.Simulates (Option.Rel K.LikeValue) (Run.look (·.lookup scope name) : Eval _)
      fun _ => Run.look (·.lookup scope name) :=
    fun m m' hm => .inr ⟨_, .of_eq fun _ => rfl, .value (hm.lookup scope name) hm⟩
  refine hlook.bind fun found found' hfound => ?_
  cases hfound with
  | some hv => exact simulates_pure hv
  | none => exact simulates_raise scope hp _

/-! ### Loops -/

/-- The iterations of a counted loop. On the right, `used` of them have been made already. -/
theorem simulates_countFrom (hev : ∀ k ≤ n, K.Follows k) (var : String) {b b' : Body}
    (hb : K.body b b') (stop step : Float) (left used : Nat) (i : Float)
    {done done' : List Value} (hdone : List.Forall₂ K.LikeValue done done') :
    K.Simulates (List.Forall₂ K.LikeValue)
      (Eval.countFrom (eval n) scope var b stop step left i done)
      fun k => Eval.countFrom (eval k) scope var b' stop step (k - used) i done' := by
  induction left generalizing used i done done' with
  | zero => exact simulates_exhausted _
  | succ left ih =>
    have hstep : K.Simulates (List.Forall₂ K.LikeValue)
        (Eval.countFrom (eval n) scope var b stop step (left + 1) i done) fun k =>
          if Eval.inRange stop step i then
            Eval.bindName scope var (.number i) >>= fun _ => Eval.body (eval k) scope b' >>=
              fun v => Eval.countFrom (eval k) scope var b' stop step (k - (used + 1)) (i + step)
                (v :: done')
          else pure done'.reverse := by
      rw [Eval.countFrom]
      split
      · refine (simulates_bindName scope var (.number i)).bind fun _ _ _ => ?_
        refine (simulates_body hev hb).bind fun v v' hv => ?_
        exact ih (used + 1) (i + step) (.cons hv hdone)
      · exact simulates_pure (List.rel_reverse hdone)
    refine hstep.right fun m reply htends => htends.congr (used + 1) fun k hk => ?_
    obtain ⟨d, hd⟩ : ∃ d, k - used = d + 1 := ⟨k - used - 1, by omega⟩
    have hd' : k - (used + 1) = d := by omega
    show Eval.countFrom (eval k) scope var b' stop step (k - used) i done' m = _
    rw [hd, hd', Eval.countFrom]

theorem simulates_repeatWhile (hev : ∀ k ≤ n, K.Follows k) {c c' : Expr} (hc : K.expr c c')
    {b b' : Body} (hb : K.body b b') (left used : Nat) {done done' : List Value}
    (hdone : List.Forall₂ K.LikeValue done done') :
    K.Simulates (List.Forall₂ K.LikeValue) (Eval.repeatWhile (eval n) scope c b left done)
      fun k => Eval.repeatWhile (eval k) scope c' b' (k - used) done' := by
  induction left generalizing used done done' with
  | zero => exact simulates_exhausted _
  | succ left ih =>
    have hstep : K.Simulates (List.Forall₂ K.LikeValue)
        (Eval.repeatWhile (eval n) scope c b (left + 1) done) fun k =>
          Eval.condition (eval k) scope c' >>= fun holds => if holds = true then
            Eval.body (eval k) scope b' >>= fun v =>
              Eval.repeatWhile (eval k) scope c' b' (k - (used + 1)) (v :: done')
          else pure done'.reverse := by
      refine (simulates_condition (hev n (Nat.le_refl n)) hc).bind fun holds holds' hsame => ?_
      subst hsame
      cases holds with
      | true =>
        exact (simulates_body hev hb).bind fun v v' hv => ih (used + 1) (.cons hv hdone)
      | false => exact simulates_pure (List.rel_reverse hdone)
    refine hstep.right fun m reply htends => htends.congr (used + 1) fun k hk => ?_
    obtain ⟨d, hd⟩ : ∃ d, k - used = d + 1 := ⟨k - used - 1, by omega⟩
    have hd' : k - (used + 1) = d := by omega
    show Eval.repeatWhile (eval k) scope c' b' (k - used) done' m = _
    rw [hd, hd', Eval.repeatWhile]

/-- The step 1 is the same with and without its literal, which needs one level of evaluation. -/
theorem simulates_added (p : Position) :
    K.Simulates Eq (pure 1 : Eval Float)
      fun k => Eval.bound (eval k) scope (.number 1 p) "FOR step" := by
  refine (simulates_pure rfl).right fun m reply htends => htends.congr 1 fun k hk => ?_
  obtain ⟨k, rfl⟩ : ∃ j, k = j + 1 := ⟨k - 1, by omega⟩
  rfl

theorem simulates_dropped (n : Nat) (p : Position) :
    K.Simulates Eq (Eval.bound (eval n) scope (.number 1 p) "FOR step")
      fun _ => (pure 1 : Eval Float) := by
  cases n with
  | zero => exact simulates_exhausted _
  | succ n => exact simulates_pure rfl

theorem simulates_forTo (hev : ∀ k ≤ n, K.Follows k) (var : String)
    {start start' stop stop' : Expr} {step step' : Option Expr} {b b' : Body} {p p' : Position}
    (hstart : K.expr start start') (hstop : K.expr stop stop') (hstep : LikeStep K.expr step step')
    (hb : K.body b b') :
    K.Simulates K.LikeValue (Eval.forTo (eval n) n scope var start stop step b p)
      fun k => Eval.forTo (eval k) k scope var start' stop' step' b' p' := by
  have hev' := hev n (Nat.le_refl n)
  refine (simulates_bound hev' hstart _).bind fun first _ hfirst => ?_
  subst hfirst
  refine (simulates_bound hev' hstop _).bind fun last _ hlast => ?_
  subst hlast
  -- with the step known, what remains are the iterations and an entry in the log
  have hrest : ∀ by_ by_' : Float, by_ = by_' → K.Simulates K.LikeValue (do
        let values ← Eval.countFrom (eval n) scope var b last by_ n first []
        Eval.record (.forRan var p values.length)
        pure (Value.list values)) fun k => (do
        let values ← Eval.countFrom (eval k) scope var b' last by_' k first []
        Eval.record (.forRan var p' values.length)
        pure (Value.list values)) := by
    rintro by_ _ rfl
    refine (simulates_countFrom hev var hb last by_ n 0 first .nil).bind fun vs vs' hvs => ?_
    refine (simulates_record (.forRan var p vs.length) (.forRan var p' vs'.length) rfl).bind ?_
    exact fun _ _ _ => simulates_pure (.list hvs)
  cases hstep with
  | none => exact (simulates_pure rfl).bind hrest
  | some he => exact (simulates_bound hev' he _).bind hrest
  | added q => exact (simulates_added q).bind hrest
  | dropped q => exact (simulates_dropped n q).bind hrest

theorem simulates_whileDo (hev : ∀ k ≤ n, K.Follows k) {c c' : Expr} (hc : K.expr c c')
    {b b' : Body} (hb : K.body b b') :
    K.Simulates K.LikeValue (Eval.whileDo (eval n) n scope c b)
      fun k => Eval.whileDo (eval k) k scope c' b' := by
  refine (simulates_repeatWhile hev hc hb n 0 .nil).bind fun vs vs' hvs => ?_
  refine (simulates_record (.whileRan vs.length) (.whileRan vs'.length) rfl).bind ?_
  exact fun _ _ _ => simulates_pure (.list hvs)

/-! ### Functions -/

theorem simulates_define (name : Option String) (params : List String) {b b' : Body}
    (hb : K.body b b') :
    K.Simulates K.LikeValue (Eval.define scope name params b)
      fun _ => Eval.define scope name params b' := by
  have hf : K.LikeValue (.function ⟨name, params, b, scope⟩) (.function ⟨name, params, b', scope⟩) :=
    .function ⟨rfl, rfl, hb, rfl⟩
  cases name with
  | some name => exact (simulates_bindName scope name hf).bind fun _ _ _ => simulates_pure hf
  | none => exact simulates_pure hf

theorem simulates_callFunction (hev : ∀ k ≤ n, K.Follows k) {f f' : Closure}
    (hf : K.LikeClosure f f') {vs vs' : List Value} (hvs : List.Forall₂ K.LikeValue vs vs')
    {p p' : Position} (hp : K.place p p') :
    K.Simulates K.LikeValue (Eval.callFunction (eval n) scope f vs p)
      fun k => Eval.callFunction (eval k) scope f' vs' p' := by
  unfold Eval.callFunction
  rw [hf.displayName, hf.params, hf.scope, ← hvs.length_eq]
  refine (simulates_lift scope hp (likeResult_refl _)).bind fun _ _ _ => ?_
  refine (simulates_record _ _ rfl).bind fun _ _ _ => ?_
  have henter : K.Simulates Eq (Eval.enter f.scope f.displayName p (f.params.zip vs))
      fun _ => Eval.enter f.scope f.displayName p' (f.params.zip vs') := by
    intro m m' hm
    have hsize : m'.scopes.size = m.scopes.size := hm.size
    have hentered := hm.enter f.scope f.displayName hp
    refine .inr ⟨_, .of_eq fun _ => rfl, .value hsize.symm ?_⟩
    show K.LikeMachine ((m.enter f.scope f.displayName p).2.setAll m.scopes.size (f.params.zip vs))
      ((m'.enter f.scope f.displayName p').2.setAll m'.scopes.size (f.params.zip vs'))
    rw [hsize]
    exact hentered.setAll _ f.params hvs
  refine henter.bind fun inner _ hinner => ?_
  subst hinner
  exact simulates_body hev hf.body

theorem simulates_callBuiltin (name : String) {vs vs' : List Value}
    (hvs : List.Forall₂ K.LikeValue vs vs') {p p' : Position} (hp : K.place p p') :
    K.Simulates K.LikeValue (Eval.callBuiltin scope name vs p)
      fun _ => Eval.callBuiltin scope name vs' p' := by
  unfold Eval.callBuiltin
  cases Builtin.ofName? name with
  | none => exact simulates_raise scope hp _
  | some b =>
    rw [← hvs.length_eq]
    refine (simulates_lift scope hp (likeResult_refl _)).bind fun _ _ _ => ?_
    have hlook : K.Simulates
        (fun r r' => LikeResult K.LikeValue r.1 r'.1 ∧ r'.2 = r.2)
        (Run.look fun m => b.apply m.clock vs : Eval _) fun _ => Run.look fun m =>
          b.apply m.clock vs' := by
      intro m m' hm
      have hsame := K.uniform_likeValue.builtin b m.clock hvs
      refine .inr ⟨(.value (b.apply m.clock vs'), m'), .of_eq fun _ => ?_, .value hsame hm⟩
      rw [← hm.clock]
      rfl
    refine hlook.bind ?_
    rintro ⟨result, events⟩ ⟨result', events'⟩ ⟨hresult, hevents⟩
    obtain rfl : events' = events := hevents
    refine (simulates_modify fun _ _ hm => hm.recordAll events').bind fun _ _ _ => ?_
    exact simulates_lift scope hp hresult

theorem simulates_call (hev : ∀ k ≤ n, K.Follows k) {f f' : Value} (hf : K.LikeValue f f')
    {vs vs' : List Value} (hvs : List.Forall₂ K.LikeValue vs vs') {p p' : Position}
    (hp : K.place p p') :
    K.Simulates K.LikeValue (Eval.call (eval n) scope f vs p)
      fun k => Eval.call (eval k) scope f' vs' p' := by
  cases hf with
  | function hf => exact simulates_callFunction hev hf hvs hp
  | builtIn name => exact simulates_callBuiltin name hvs hp
  | number x => exact simulates_raise scope hp _
  | text s => exact simulates_raise scope hp _
  | list h => exact simulates_raise scope hp _

end evaluator

/-! ### Expressions -/

theorem simulates_evalOver {n : Nat} (hev : ∀ k ≤ n, K.Follows k) {scope : ScopeId} {e e' : Expr}
    (he : K.expr e e') :
    K.Simulates K.LikeValue (evalOver (eval n) n scope e)
      fun k => evalOver (eval k) k scope e' := by
  have hev' := hev n (Nat.le_refl n)
  cases K.node he with
  | number value hp => exact simulates_pure (.number value)
  | text value hp => exact simulates_pure (.text value)
  | list hes hp =>
    exact (simulates_all hev' hes).bind fun vs vs' hvs => simulates_pure (.list hvs)
  | name name hp => exact simulates_variable name hp
  | assign name hvalue hp =>
    refine (hev' hvalue).bind fun v v' hv => ?_
    exact (simulates_bindName scope name hv).bind fun _ _ _ => simulates_pure hv
  | binary op hl hr hp =>
    refine (hev' hl).bind fun l l' hl => (hev' hr).bind fun r r' hr => ?_
    exact simulates_lift scope hp (K.uniform_likeValue.applyBinary hl hr op)
  | unary op hoperand hp =>
    exact (hev' hoperand).bind fun v v' hv =>
      simulates_lift scope hp (K.uniform_likeValue.applyUnary hv op)
  | ifThen hc hb hr hp => exact simulates_elif hev hc hb (simulates_chain hev hr)
  | forTo var hstart hstop hstep hb hp => exact simulates_forTo hev var hstart hstop hstep hb
  | whileDo hc hb hp => exact simulates_whileDo hev hc hb
  | function name params hb hp => exact simulates_define name params hb
  | call hf hes hp =>
    refine (hev' hf).bind fun f f' hf => (simulates_all hev' hes).bind fun vs vs' hvs => ?_
    exact simulates_call hev hf hvs hp

/-- **Simulation.** With every bound, the evaluation of an expression is simulated by that of a like
expression. -/
theorem follows (n : Nat) : K.Follows n := by
  induction n using Nat.strongRecOn with
  | ind n ih =>
    intro scope e e' he
    cases n with
    | zero => exact simulates_exhausted _
    | succ n =>
      have hev : ∀ k ≤ n, K.Follows k := fun k hk => ih k (Nat.lt_succ_of_le hk)
      exact (simulates_evalOver hev he).right fun m reply htends => tends_eval htends

/-! ### Finished evaluations -/

theorem eval_eq_of_tends {n : Nat} {scope : ScopeId} {e : Expr} {m : Machine}
    {reply : Outcome Fault Value × Machine} (htends : Tends (fun k => eval k scope e) m reply)
    (hends : (eval n scope e m).1 ≠ .exhausted) : eval n scope e m = reply := by
  obtain ⟨least, hleast⟩ := htends
  rw [← hleast (max least n) (Nat.le_max_left _ _)]
  exact (eval_prolongs (Nat.le_max_right least n) scope e m hends).symm

/-- Where the evaluation of an expression ends, that of a like one ends. -/
theorem eval_ends_of_like {n : Nat} {scope : ScopeId} {e e' : Expr} {m m' : Machine}
    (he : K.expr e e') (hm : K.LikeMachine m m') (hends : (eval n scope e m).1 ≠ .exhausted) :
    ∃ k, (eval k scope e' m').1 ≠ .exhausted := by
  obtain ⟨reply, ⟨least, hleast⟩, hreply⟩ := (follows n he m m' hm).resolve_left hends
  refine ⟨least, ?_⟩
  have hrun : eval least scope e' m' = reply := hleast least (Nat.le_refl _)
  rw [hrun]
  generalize eval n scope e m = left at hreply
  cases hreply <;> exact nofun

/-- Where the evaluations of like expressions end, they end alike. -/
theorem likeReply_eval {n n' : Nat} {scope : ScopeId} {e e' : Expr} {m m' : Machine}
    (he : K.expr e e') (hm : K.LikeMachine m m') (hends : (eval n scope e m).1 ≠ .exhausted)
    (hends' : (eval n' scope e' m').1 ≠ .exhausted) :
    K.LikeReply K.LikeValue (eval n scope e m) (eval n' scope e' m') := by
  obtain ⟨reply, htends, hreply⟩ := (follows n he m m' hm).resolve_left hends
  rw [eval_eq_of_tends htends hends']
  exact hreply

end Likeness

end LineScript
