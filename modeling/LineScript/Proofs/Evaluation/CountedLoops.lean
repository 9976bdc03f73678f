import LineScript.Proofs.Evaluation.Frame
import LineScript.Proofs.Evaluation.Simulation

/-!
# Counted loops

A counted loop is a fold over numbers that are fixed before its first pass. The counter belongs to
the loop: a pass binds the variable to the next number and evaluates the body, and whatever the body
does to the variable, the number after it is the same.

  * `iterate first step k` is the number of the pass `k`, and `iterates first step n` are the
    numbers of the first `n` passes.
  * `GoesOn stop step x`: there is a pass for the number `x`.
  * `Passes pass xs m vs m'`: passes for the numbers `xs`, one after the other, lead from the
    machine `m` to `m'` and give the values `vs`.
  * `PassEnds scope var b x m reply`: the pass for the number `x` ends with this reply.

**Key idea.** With a bound on the number of passes, the loop is compared with the fold pass by pass
(`countFrom_eq_value_iff`, `countFrom_eq_error_iff`). A pass that ends does so with every larger
bound, so the bound can be dropped on both sides.
-/

namespace LineScript

open Run

/-! ### The numbers of a loop -/

/-- The number of a pass: each is the one before it plus the step. -/
def iterate (first step : Float) : Nat → Float
  | 0 => first
  | k + 1 => iterate first step k + step

/-- The numbers of the first `n` passes. -/
def iterates (first step : Float) (n : Nat) : List Float :=
  (List.range n).map (iterate first step)

/-- There is a pass for the number `x`: it is below the end if the loop counts upwards, and above it
otherwise. A step that is no number counts downwards. -/
def GoesOn (stop step x : Float) : Prop :=
  (0 ≤ step ∧ x < stop) ∨ (¬ 0 ≤ step ∧ stop < x)

instance (stop step x : Float) : Decidable (GoesOn stop step x) :=
  inferInstanceAs (Decidable (_ ∨ _))

theorem inRange_eq_true_iff {stop step x : Float} :
    Eval.inRange stop step x = true ↔ GoesOn stop step x := by
  unfold Eval.inRange GoesOn
  by_cases hstep : 0 ≤ step <;> simp [hstep]

/-- The numbers after the first are those of a loop that starts with the second. -/
theorem iterate_add (first step : Float) (k : Nat) :
    iterate (first + step) step k = iterate first step (k + 1) := by
  induction k with
  | zero => rfl
  | succ k ih =>
    show iterate (first + step) step k + step = iterate first step (k + 1) + step
    rw [ih]

theorem iterates_succ (first step : Float) (n : Nat) :
    iterates first step (n + 1) = first :: iterates (first + step) step n := by
  have hshift : iterate (first + step) step = iterate first step ∘ Nat.succ := by
    funext k
    exact iterate_add first step k
  simp only [iterates, List.range_succ_eq_map, List.map_cons, List.map_map, hshift]
  rfl

@[simp] theorem length_iterates (first step : Float) (n : Nat) :
    (iterates first step n).length = n := by
  simp [iterates]

/-- There is a pass for each of the first `n + 1` numbers if there is one for the first, and for
each of the `n` numbers after it. -/
theorem goesOn_succ {stop step first : Float} {n : Nat} :
    (∀ k < n + 1, GoesOn stop step (iterate first step k)) ↔
      GoesOn stop step first ∧ ∀ k < n, GoesOn stop step (iterate (first + step) step k) := by
  simp only [iterate_add]
  constructor
  · intro h
    exact ⟨h 0 (by omega), fun k hk => h (k + 1) (by omega)⟩
  · intro ⟨hfirst, hrest⟩ k hk
    cases k with
    | zero => exact hfirst
    | succ k => exact hrest k (by omega)

/-! ### Passes -/

/-- Passes for the numbers, in order. Each starts on the machine that the one before it left, and
they give the values. How a pass for a number ends, `pass` says. -/
inductive Passes (pass : Float → Machine → Outcome Fault Value × Machine → Prop) :
    List Float → Machine → List Value → Machine → Prop
  /-- No pass changes nothing. -/
  | done (m : Machine) : Passes pass [] m [] m
  /-- One pass, and those after it. -/
  | next {x : Float} {xs : List Float} {v : Value} {vs : List Value} {m m₁ m' : Machine}
      (hfirst : pass x m (.value v, m₁)) (hrest : Passes pass xs m₁ vs m') :
      Passes pass (x :: xs) m (v :: vs) m'

/-- The pass for the number `x` ends with this reply: the variable is bound to `x`, then the body is
evaluated. -/
def PassEnds (scope : ScopeId) (var : String) (b : Body) (x : Float) (m : Machine)
    (reply : Outcome Fault Value × Machine) : Prop :=
  Tends (fun n => Eval.body (eval n) scope b) (m.set scope var (.number x)) reply

/-- The same with a given evaluator for the body. -/
def PassEndsOver (ev : Evaluator) (scope : ScopeId) (var : String) (b : Body) (x : Float)
    (m : Machine) (reply : Outcome Fault Value × Machine) : Prop :=
  Eval.body ev scope b (m.set scope var (.number x)) = reply

section passes

variable {pass pass' : Float → Machine → Outcome Fault Value × Machine → Prop} {xs : List Float}
  {vs : List Value} {m m' : Machine}

/-- There is one value for each number. -/
theorem Passes.length_eq (h : Passes pass xs m vs m') : vs.length = xs.length := by
  induction h with
  | done m => rfl
  | next _ _ ih => simp [ih]

theorem Passes.mono (h : Passes pass xs m vs m')
    (himp : ∀ x m v m', pass x m (.value v, m') → pass' x m (.value v, m')) :
    Passes pass' xs m vs m' := by
  induction h with
  | done m => exact .done m
  | next hfirst _ ih => exact .next (himp _ _ _ _ hfirst) ih

/-- What one pass keeps, all of them keep. -/
theorem Passes.keeps {P : Machine → Prop} (h : Passes pass xs m vs m') (hm : P m)
    (hpass : ∀ x m v m', P m → pass x m (.value v, m') → P m') : P m' := by
  induction h with
  | done m => exact hm
  | next hfirst _ ih => exact ih (hpass _ _ _ _ hm hfirst)

theorem passes_nil_iff : Passes pass [] m vs m' ↔ vs = [] ∧ m' = m := by
  constructor
  · intro h
    cases h
    exact ⟨rfl, rfl⟩
  · rintro ⟨rfl, rfl⟩
    exact .done _

end passes

/-! ### The loop, with a bound on the number of passes -/

section bounded

variable {ev : Evaluator} {scope : ScopeId} {var : String} {b : Body} {stop step i : Float}
  {n : Nat} {done : List Value} {m m' : Machine}

/-- Where the loop goes on, it makes a pass and goes on from the next number. -/
theorem countFrom_of_goesOn (h : GoesOn stop step i) :
    Eval.countFrom ev scope var b stop step (n + 1) i done m =
      (Eval.body ev scope b >>= fun v =>
        Eval.countFrom ev scope var b stop step n (i + step) (v :: done))
        (m.set scope var (.number i)) := by
  rw [Eval.countFrom, if_pos (inRange_eq_true_iff.mpr h)]
  rfl

theorem countFrom_of_not_goesOn (h : ¬ GoesOn stop step i) :
    Eval.countFrom ev scope var b stop step (n + 1) i done m = (.value done.reverse, m) := by
  rw [Eval.countFrom, if_neg fun hrange => h (inRange_eq_true_iff.mp hrange)]
  rfl

/-- The loop gives a list of values exactly if it goes on at as many numbers and no further, and the
passes for these numbers give the values. -/
theorem countFrom_eq_value_iff {us : List Value} :
    Eval.countFrom ev scope var b stop step n i done m = (.value us, m') ↔
      ∃ k vs, k < n ∧ us = done.reverse ++ vs ∧
        (∀ j < k, GoesOn stop step (iterate i step j)) ∧ ¬ GoesOn stop step (iterate i step k) ∧
        Passes (PassEndsOver ev scope var b) (iterates i step k) m vs m' := by
  induction n generalizing i done m with
  | zero =>
    show (Outcome.exhausted, m) = (.value us, m') ↔ _
    simp
  | succ n ih =>
    by_cases hgoes : GoesOn stop step i
    · rw [countFrom_of_goesOn hgoes, bind_eq_value_iff]
      constructor
      · rintro ⟨v, m₁, hbody, hrest⟩
        obtain ⟨k, vs, hk, rfl, hbelow, hend, hpasses⟩ := ih.mp hrest
        refine ⟨k + 1, v :: vs, by omega, by simp, goesOn_succ.mpr ⟨hgoes, hbelow⟩, ?_, ?_⟩
        · rwa [← iterate_add]
        · rw [iterates_succ]
          exact .next hbody hpasses
      · rintro ⟨k, vs, hk, rfl, hbelow, hend, hpasses⟩
        -- the loop does not end at its first number
        obtain _ | k := k
        · exact absurd hgoes hend
        rw [iterates_succ] at hpasses
        cases hpasses with
        | @next _ _ v vs _ m₁ _ hfirst hrest =>
          refine ⟨v, m₁, hfirst, ih.mpr ⟨k, vs, by omega, by simp, ?_, ?_, hrest⟩⟩
          · exact (goesOn_succ.mp hbelow).2
          · rwa [iterate_add]
    · rw [countFrom_of_not_goesOn hgoes]
      constructor
      · intro h
        cases h
        exact ⟨0, [], by omega, by simp, nofun, hgoes, .done _⟩
      · rintro ⟨k, vs, _, rfl, hbelow, _, hpasses⟩
        obtain _ | k := k
        · obtain ⟨rfl, rfl⟩ := passes_nil_iff.mp hpasses
          simp
        · exact absurd (goesOn_succ.mp hbelow).1 hgoes

/-- The loop fails exactly if some pass fails after others that did not, and there is one for each
of the numbers so far. -/
theorem countFrom_eq_error_iff {fault : Fault} :
    Eval.countFrom ev scope var b stop step n i done m = (.error fault, m') ↔
      ∃ k vs m₁, k < n ∧ (∀ j < k + 1, GoesOn stop step (iterate i step j)) ∧
        Passes (PassEndsOver ev scope var b) (iterates i step k) m vs m₁ ∧
        PassEndsOver ev scope var b (iterate i step k) m₁ (.error fault, m') := by
  induction n generalizing i done m with
  | zero =>
    show (Outcome.exhausted, m) = (.error fault, m') ↔ _
    simp
  | succ n ih =>
    by_cases hgoes : GoesOn stop step i
    · rw [countFrom_of_goesOn hgoes, bind_eq_error_iff]
      constructor
      · rintro (hbody | ⟨v, m₁, hbody, hrest⟩)
        · -- the first pass fails
          refine ⟨0, [], m, by omega, ?_, .done m, hbody⟩
          exact goesOn_succ.mpr ⟨hgoes, nofun⟩
        · obtain ⟨k, vs, m₂, hk, hbelow, hpasses, hlast⟩ := ih.mp hrest
          refine ⟨k + 1, v :: vs, m₂, by omega, goesOn_succ.mpr ⟨hgoes, hbelow⟩, ?_, ?_⟩
          · rw [iterates_succ]
            exact .next hbody hpasses
          · rwa [← iterate_add]
      · rintro ⟨k, vs, m₂, hk, hbelow, hpasses, hlast⟩
        obtain _ | k := k
        · obtain ⟨rfl, rfl⟩ := passes_nil_iff.mp hpasses
          exact .inl hlast
        rw [iterates_succ] at hpasses
        cases hpasses with
        | @next _ _ v vs _ m₁ _ hfirst hrest =>
          rw [← iterate_add] at hlast
          refine .inr ⟨v, m₁, hfirst, ih.mpr ⟨k, vs, m₂, by omega, ?_, hrest, hlast⟩⟩
          exact (goesOn_succ.mp hbelow).2
    · rw [countFrom_of_not_goesOn hgoes]
      constructor
      · intro h
        cases h
      · rintro ⟨k, vs, m₂, _, hbelow, _, _⟩
        exact absurd (hbelow 0 (by omega)) hgoes

end bounded

/-! ### Without the bound -/

section unbounded

variable {scope : ScopeId} {var : String} {b : Body} {x : Float} {xs : List Float}
  {vs : List Value} {m m' : Machine}

/-- A pass that ends does so with every larger bound. -/
theorem passEnds_of_over {n : Nat} {reply : Outcome Fault Value × Machine}
    (h : PassEndsOver (eval n) scope var b x m reply) (hends : reply.1 ≠ .exhausted) :
    PassEnds scope var b x m reply := by
  refine ⟨n, ?_⟩
  intro k hk
  have hbody : Eval.body (eval n) scope b (m.set scope var (.number x)) = reply := h
  have hlonger : (Eval.body (eval k) scope b).Prolongs (Eval.body (eval n) scope b) :=
    prolongs_body (eval_prolongs hk) b
  show Eval.body (eval k) scope b (m.set scope var (.number x)) = reply
  rw [hlonger _ (by rwa [hbody]), hbody]

/-- Passes that end do so with every bound that is large enough for all of them. -/
theorem Passes.over (h : Passes (PassEnds scope var b) xs m vs m') :
    ∃ least, ∀ n, least ≤ n → Passes (PassEndsOver (eval n) scope var b) xs m vs m' := by
  induction h with
  | done m => exact ⟨0, fun n _ => .done m⟩
  | next hfirst _ ih =>
    obtain ⟨least, hleast⟩ := hfirst
    obtain ⟨least', hleast'⟩ := ih
    refine ⟨max least least', ?_⟩
    intro n hn
    exact .next (hleast n (by omega)) (hleast' n (by omega))

end unbounded

/-! ### The bounds -/

/-- The step is the number `d`: the value of its expression, or 1 if there is none. -/
def StepEnds (scope : ScopeId) (by_ : Option Expr) (m : Machine) (d : Float) (m' : Machine) :
    Prop :=
  match by_ with
  | some e => Tends (fun n => eval n scope e) m (.value (.number d), m')
  | none => d = 1 ∧ m' = m

/-- What is left of a counted loop once its bounds are known. -/
def countedRest (ev : Evaluator) (scope : ScopeId) (var : String) (b : Body) (p : Position)
    (first stop step : Float) (n : Nat) : Eval Value := do
  let values ← Eval.countFrom ev scope var b stop step n first []
  Eval.record (.forRan var p values.length)
  pure (.list values)

section bounds

variable {scope : ScopeId} {var : String} {start stop : Expr} {by_ : Option Expr} {b : Body}
  {p : Position} {m m₁ m₂ m₃ m' : Machine} {s e d : Float}

theorem tends_bound {bound : Expr} {x : Float} (operation : String)
    (h : Tends (fun n => eval n scope bound) m (.value (.number x), m')) :
    Tends (fun n => Eval.bound (eval n) scope bound operation) m (.value x, m') :=
  h.bind (.of_eq fun _ => rfl)

theorem tends_step (h : StepEnds scope by_ m d m') :
    Tends (fun n => match by_ with
      | some e => Eval.bound (eval n) scope e "FOR step"
      | none => pure 1) m (.value d, m') := by
  cases by_ with
  | some e => exact tends_bound _ h
  | none =>
    obtain ⟨rfl, rfl⟩ := h
    exact .of_eq fun _ => rfl

/-- With every bound on the depth that is large enough, the numbers of the loop are known and the
rest is left. -/
theorem forTo_eq_countedRest (var : String) (b : Body) (p : Position)
    (hstart : Tends (fun n => eval n scope start) m (.value (.number s), m₁))
    (hstop : Tends (fun n => eval n scope stop) m₁ (.value (.number e), m₂))
    (hstep : StepEnds scope by_ m₂ d m₃) :
    ∃ least, ∀ n, least ≤ n → eval (n + 1) scope (.forTo var start stop by_ b p) m =
      countedRest (eval n) scope var b p s e d n m₃ := by
  obtain ⟨least₁, hleast₁⟩ := tends_bound "FOR start" hstart
  obtain ⟨least₂, hleast₂⟩ := tends_bound "FOR end" hstop
  obtain ⟨least₃, hleast₃⟩ := tends_step hstep
  refine ⟨max least₁ (max least₂ least₃), ?_⟩
  intro n hn
  have h₁ : Eval.bound (eval n) scope start "FOR start" m = (.value s, m₁) := hleast₁ n (by omega)
  have h₂ : Eval.bound (eval n) scope stop "FOR end" m₁ = (.value e, m₂) := hleast₂ n (by omega)
  show Eval.forTo (eval n) n scope var start stop by_ b p m = _
  unfold Eval.forTo
  rw [bind_apply, h₁]
  show (Eval.bound (eval n) scope stop "FOR end" >>= _) m₁ = _
  rw [bind_apply, h₂]
  cases by_ with
  | some step =>
    have h₃ : Eval.bound (eval n) scope step "FOR step" m₂ = (.value d, m₃) :=
      hleast₃ n (by omega)
    show (Eval.bound (eval n) scope step "FOR step" >>= _) m₂ = _
    rw [bind_apply, h₃]
    rfl
  | none =>
    -- without an expression the step is 1, and nothing is evaluated
    obtain ⟨rfl, rfl⟩ := hstep
    rfl

/-- The loop ends as what is left of it after its bounds. -/
theorem tends_forTo_iff
    (hstart : Tends (fun n => eval n scope start) m (.value (.number s), m₁))
    (hstop : Tends (fun n => eval n scope stop) m₁ (.value (.number e), m₂))
    (hstep : StepEnds scope by_ m₂ d m₃) {reply : Outcome Fault Value × Machine} :
    Tends (fun n => eval n scope (.forTo var start stop by_ b p)) m reply ↔
      Tends (fun n => countedRest (eval n) scope var b p s e d n) m₃ reply := by
  obtain ⟨least, hleast⟩ := forTo_eq_countedRest var b p hstart hstop hstep
  constructor
  · intro ⟨least', hends⟩
    refine ⟨max least least', ?_⟩
    intro n hn
    show countedRest (eval n) scope var b p s e d n m₃ = reply
    rw [← hleast n (by omega)]
    exact hends (n + 1) (by omega)
  · intro ⟨least', hends⟩
    refine ⟨max least least' + 1, ?_⟩
    intro n hn
    obtain ⟨n, rfl⟩ : ∃ k, n = k + 1 := ⟨n - 1, by omega⟩
    show eval (n + 1) scope (.forTo var start stop by_ b p) m = reply
    rw [hleast n (by omega)]
    exact hends n (by omega)

theorem size_le_of_tends {a : Expr} {reply : Outcome Fault Value × Machine}
    (h : Tends (fun n => eval n scope a) m reply) (hscope : scope < m.scopes.size) :
    m.scopes.size ≤ reply.2.scopes.size := by
  obtain ⟨least, hleast⟩ := h
  rw [← hleast least (Nat.le_refl _)]
  exact (eval_framed least scope a m hscope).size_le

/-- The scope of the loop is there once its bounds are known. -/
theorem scope_lt_of_bounds (hscope : scope < m.scopes.size)
    (hstart : Tends (fun n => eval n scope start) m (.value (.number s), m₁))
    (hstop : Tends (fun n => eval n scope stop) m₁ (.value (.number e), m₂))
    (hstep : StepEnds scope by_ m₂ d m₃) : scope < m₃.scopes.size := by
  have hscope₁ := Nat.lt_of_lt_of_le hscope (size_le_of_tends hstart hscope)
  have hscope₂ := Nat.lt_of_lt_of_le hscope₁ (size_le_of_tends hstop hscope₁)
  cases by_ with
  | some step => exact Nat.lt_of_lt_of_le hscope₂ (size_le_of_tends hstep hscope₂)
  | none =>
    obtain ⟨_, rfl⟩ := hstep
    exact hscope₂

end bounds

/-! ### What the rest of a loop gives -/

section rest

variable {scope : ScopeId} {var : String} {b : Body} {p : Position} {s e d : Float} {n : Nat}
  {m m' : Machine}

theorem countedRest_eq_value_iff {ev : Evaluator} {v : Value} :
    countedRest ev scope var b p s e d n m = (.value v, m') ↔
      ∃ vs m₁, Eval.countFrom ev scope var b e d n s [] m = (.value vs, m₁) ∧ v = .list vs ∧
        m' = m₁.record (.forRan var p vs.length) := by
  unfold countedRest
  rw [bind_eq_value_iff]
  constructor
  · intro ⟨vs, m₁, hcount, hrest⟩
    cases hrest
    exact ⟨vs, m₁, hcount, rfl, rfl⟩
  · intro ⟨vs, m₁, hcount, hv, hm⟩
    refine ⟨vs, m₁, hcount, ?_⟩
    rw [hv, hm]
    rfl

theorem countedRest_eq_error_iff {ev : Evaluator} {fault : Fault} :
    countedRest ev scope var b p s e d n m = (.error fault, m') ↔
      Eval.countFrom ev scope var b e d n s [] m = (.error fault, m') := by
  unfold countedRest
  rw [bind_eq_error_iff]
  constructor
  · intro h
    rcases h with hcount | ⟨vs, m₁, _, hrest⟩
    · exact hcount
    · -- recording the loop does not fail
      cases hrest
  · exact .inl

/-- The rest gives a value exactly if the loop goes on at finitely many numbers and a pass for each
of them ends. -/
theorem tends_countedRest_value_iff {v : Value} :
    Tends (fun n => countedRest (eval n) scope var b p s e d n) m (.value v, m') ↔
      ∃ n vs m₁, (∀ k < n, GoesOn e d (iterate s d k)) ∧ ¬ GoesOn e d (iterate s d n) ∧
        Passes (PassEnds scope var b) (iterates s d n) m vs m₁ ∧ v = .list vs ∧
        m' = m₁.record (.forRan var p n) := by
  constructor
  · intro ⟨least, hends⟩
    obtain ⟨us, m₁, hcount, hv, hm⟩ := countedRest_eq_value_iff.mp (hends least (Nat.le_refl _))
    obtain ⟨n, vs, _, hus, hbelow, hend, hpasses⟩ := countFrom_eq_value_iff.mp hcount
    have hlength : vs.length = n := by rw [hpasses.length_eq, length_iterates]
    rw [List.reverse_nil, List.nil_append] at hus
    refine ⟨n, vs, m₁, hbelow, hend, ?_, by rw [hv, hus], by rw [hm, hus, hlength]⟩
    exact hpasses.mono fun _ _ _ _ hpass => passEnds_of_over hpass (by simp)
  · intro ⟨n, vs, m₁, hbelow, hend, hpasses, hv, hm⟩
    obtain ⟨least, hleast⟩ := hpasses.over
    have hlength : vs.length = n := by rw [hpasses.length_eq, length_iterates]
    -- the bound also limits the number of passes
    refine ⟨max least (n + 1), ?_⟩
    intro bound hbound
    refine countedRest_eq_value_iff.mpr ⟨vs, m₁, ?_, hv, by rw [hm, hlength]⟩
    exact countFrom_eq_value_iff.mpr
      ⟨n, vs, by omega, by simp, hbelow, hend, hleast bound (by omega)⟩

/-- The rest fails exactly if a pass fails after others that ended. -/
theorem tends_countedRest_error_iff {fault : Fault} :
    Tends (fun n => countedRest (eval n) scope var b p s e d n) m (.error fault, m') ↔
      ∃ k vs m₁, (∀ j ≤ k, GoesOn e d (iterate s d j)) ∧
        Passes (PassEnds scope var b) (iterates s d k) m vs m₁ ∧
        PassEnds scope var b (iterate s d k) m₁ (.error fault, m') := by
  constructor
  · intro ⟨least, hends⟩
    have hcount := countedRest_eq_error_iff.mp (hends least (Nat.le_refl _))
    obtain ⟨k, vs, m₁, _, hbelow, hpasses, hlast⟩ := countFrom_eq_error_iff.mp hcount
    refine ⟨k, vs, m₁, fun j hj => hbelow j (by omega), ?_, passEnds_of_over hlast (by simp)⟩
    exact hpasses.mono fun _ _ _ _ hpass => passEnds_of_over hpass (by simp)
  · intro ⟨k, vs, m₁, hbelow, hpasses, hlast⟩
    obtain ⟨least, hleast⟩ := hpasses.over
    obtain ⟨least', hleast'⟩ := hlast
    refine ⟨max (max least least') (k + 1), ?_⟩
    intro bound hbound
    refine countedRest_eq_error_iff.mpr (countFrom_eq_error_iff.mpr ?_)
    exact ⟨k, vs, m₁, by omega, fun j hj => hbelow j (by omega), hleast bound (by omega),
      hleast' bound (by omega)⟩

end rest

/-! ### The variable -/

section variable_

variable {scope : ScopeId} {var : String} {b : Body} {x : Float} {xs : List Float}
  {vs : List Value} {m m' : Machine}

/-- Binding a name in a scope changes the value of this name in this scope. -/
theorem Machine.own?_set (m : Machine) {scope : ScopeId} (name : String) (v : Value)
    (hscope : scope < m.scopes.size) (i : ScopeId) (other : String) :
    (m.set scope name v).scopes.own? i other =
      if i = scope ∧ other = name then some v else m.scopes.own? i other := by
  rw [Machine.set, Forest.own?_set]
  simp only [hscope, true_and]

/-- A pass changes only what the body binds, besides the variable. -/
theorem PassEnds.confined {reply : Outcome Fault Value × Machine}
    (h : PassEnds scope var b x m reply) (hscope : scope < m.scopes.size) :
    Machine.Confined scope (Targets b.nodes) (m.set scope var (.number x)) reply.2 := by
  obtain ⟨least, hleast⟩ := h
  have hbody := hleast least (Nat.le_refl _)
  have hconfined := confines_body (eval_framed least) (List.Subset.refl b.nodes)
    (m.set scope var (.number x)) (by rwa [Machine.size_set])
  rw [← hbody]
  exact hconfined

theorem PassEnds.size_le {reply : Outcome Fault Value × Machine}
    (h : PassEnds scope var b x m reply) (hscope : scope < m.scopes.size) :
    m.scopes.size ≤ reply.2.scopes.size := by
  have hsize := (h.confined hscope).size_le
  rwa [Machine.size_set] at hsize

/-- The scope of the loop is there after every pass. -/
theorem Passes.scope_lt (h : Passes (PassEnds scope var b) xs m vs m')
    (hscope : scope < m.scopes.size) : scope < m'.scopes.size := by
  refine h.keeps (P := fun m => scope < m.scopes.size) hscope ?_
  intro x m v m' hm hpass
  exact Nat.lt_of_lt_of_le hm (hpass.size_le hm)

end variable_

/-! ### Loops are folds -/

section fold

variable {scope : ScopeId} {var : String} {start stop : Expr} {by_ : Option Expr} {b : Body}
  {p : Position} {m m₁ m₂ m₃ : Machine} {s e d : Float}

/-- **Counted loops.** Once the bounds of a loop are the numbers `s`, `e` and `d`, the loop is a
fold over the numbers `s`, `s + d`, `s + d + d` and so on. It gives a value exactly if it goes on at
the first `n` of them and not at the next, and a pass for each of them ends: the value is the list
of theirs, in order, and without a pass the machine is the one that the bounds left. It fails
exactly if it goes on at the number of some pass that fails after all passes before it ended: the
variable was last bound to this number by the loop, and it has this value at the end unless the body
binds it. -/
theorem counted_loop_is_fold (hscope : scope < m.scopes.size)
    (hstart : Tends (fun n => eval n scope start) m (.value (.number s), m₁))
    (hstop : Tends (fun n => eval n scope stop) m₁ (.value (.number e), m₂))
    (hstep : StepEnds scope by_ m₂ d m₃) :
    (∀ v m', Tends (fun n => eval n scope (.forTo var start stop by_ b p)) m (.value v, m') ↔
      ∃ n vs m₄, (∀ k < n, GoesOn e d (iterate s d k)) ∧ ¬ GoesOn e d (iterate s d n) ∧
        Passes (PassEnds scope var b) (iterates s d n) m₃ vs m₄ ∧
        v = .list vs ∧ vs.length = n ∧ (n = 0 → m₄ = m₃) ∧ m' = m₄.record (.forRan var p n)) ∧
    (∀ fault m', Tends (fun n => eval n scope (.forTo var start stop by_ b p)) m
        (.error fault, m') ↔
      ∃ k vs m₄, (∀ j ≤ k, GoesOn e d (iterate s d j)) ∧
        Passes (PassEnds scope var b) (iterates s d k) m₃ vs m₄ ∧
        PassEnds scope var b (iterate s d k) m₄ (.error fault, m') ∧
        (m₄.set scope var (.number (iterate s d k))).scopes.own? scope var =
          some (.number (iterate s d k)) ∧
        (¬ Targets b.nodes var → m'.scopes.own? scope var = some (.number (iterate s d k)))) := by
  constructor
  · intro v m'
    rw [tends_forTo_iff hstart hstop hstep, tends_countedRest_value_iff]
    constructor
    · intro ⟨n, vs, m₄, hbelow, hend, hpasses, hv, hm⟩
      have hlength : vs.length = n := by rw [hpasses.length_eq, length_iterates]
      refine ⟨n, vs, m₄, hbelow, hend, hpasses, hv, hlength, ?_, hm⟩
      intro hn
      subst hn
      exact (passes_nil_iff.mp hpasses).2
    · intro ⟨n, vs, m₄, hbelow, hend, hpasses, hv, _, _, hm⟩
      exact ⟨n, vs, m₄, hbelow, hend, hpasses, hv, hm⟩
  · intro fault m'
    rw [tends_forTo_iff hstart hstop hstep, tends_countedRest_error_iff]
    constructor
    · intro ⟨k, vs, m₄, hbelow, hpasses, hlast⟩
      have hscope₄ : scope < m₄.scopes.size :=
        hpasses.scope_lt (scope_lt_of_bounds hscope hstart hstop hstep)
      have hbound : (m₄.set scope var (.number (iterate s d k))).scopes.own? scope var =
          some (.number (iterate s d k)) := by
        rw [m₄.own?_set var _ hscope₄, if_pos ⟨rfl, rfl⟩]
      refine ⟨k, vs, m₄, hbelow, hpasses, hlast, hbound, ?_⟩
      intro hkeeps
      rw [(hlast.confined hscope₄).elsewhere var hkeeps, hbound]
    · intro ⟨k, vs, m₄, hbelow, hpasses, hlast, _⟩
      exact ⟨k, vs, m₄, hbelow, hpasses, hlast⟩

/-- A loop downwards from the value of its own variable, which its body binds to a text: the body is
evaluated twice. -/
theorem rebinding_loop_counts :
    let p : Position := .start
    let loop := Expr.forTo "i" (.name "i" p) (.number 0 p) (some (.unary .negate (.number 1 p) p))
      (.inline (.assign "i" (.text "x" p) p)) p
    let m := (Machine.ofRoot "<program>" ⟨0, 0⟩).set Machine.root "i" (.number 2)
    Machine.root < m.scopes.size ∧
      ∃ m', Tends (fun n => eval n Machine.root loop) m
          (.value (.list [.text "x", .text "x"]), m') ∧
        m'.scopes.own? Machine.root "i" = some (.text "x") := by
  intro p loop m
  have hscope : Machine.root < m.scopes.size := by decide
  refine ⟨hscope, ?_⟩
  have hvariable : Tends (fun n => eval n Machine.root (.name "i" p)) m (.value (.number 2), m) :=
    tends_eval (.of_eq fun _ => rfl)
  have hzero : Tends (fun n => eval n Machine.root (.number 0 p)) m (.value (.number 0), m) :=
    tends_eval (.of_eq fun _ => rfl)
  have hone : StepEnds Machine.root (some (.unary .negate (.number 1 p) p)) m (-1) m :=
    tends_eval (Tends.bind (tends_eval (.of_eq fun _ => rfl)) (.of_eq fun _ => rfl))
  -- the loop binds the variable, then the body does
  have hpass (x : Float) (m : Machine) :
      PassEnds Machine.root "i" (.inline (.assign "i" (.text "x" p) p)) x m
        (.value (.text "x"),
          (m.set Machine.root "i" (.number x)).set Machine.root "i" (.text "x")) :=
    tends_body .inline
      (tends_eval (Tends.bind (tends_eval (.of_eq fun _ => rfl)) (.of_eq fun _ => rfl)))
  have hgoes : ∀ k < 2, GoesOn 0 (-1) (iterate 2 (-1) k) := by decide
  have hend : ¬ GoesOn 0 (-1) (iterate 2 (-1) 2) := by decide
  refine ⟨_, ((counted_loop_is_fold hscope hvariable hzero hone).1 _ _).mpr
    ⟨2, _, _, hgoes, hend, .next (hpass _ _) (.next (hpass _ _) (.done _)), rfl, rfl, nofun,
      rfl⟩, ?_⟩
  rfl

end fold

end LineScript
