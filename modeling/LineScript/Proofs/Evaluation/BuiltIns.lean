import LineScript.Proofs.Evaluation.Jobs
import LineScript.Proofs.Evaluation.ScopeGraph

/-!
# Calls of built-in functions

A built-in function is a value that carries a name, and its code is found by this name when it is
called. Programs can pass such values around as they like, but they cannot make new ones. So the name
is always found, and the code runs only with as many arguments as it has parameters.

  * `Job.Sound j`: the job starts on a sound machine, in a scope that exists.
  * `Job.During.sound`: so does every job during it.
  * `Job.OfProgram n scope source m j`: to run the program is to carry out the job `j`, once its text
    has been read.
  * `Job.CallsBuiltIn j name vs m`: the job calls the built-in function of this name with these
    arguments, on the machine `m`.
-/

namespace LineScript

open Run

/-! ### Sound jobs -/

/-- The job starts on a sound machine, in a scope that exists. -/
structure Job.Sound (j : Job) : Prop where
  /-- The machine is sound. -/
  machine : j.machine.Sound
  /-- The scope exists. -/
  scope : j.scope < j.machine.scopes.size

/-- Evaluation of several expressions on a sound machine. -/
theorem all_sound {n : Nat} {scope : ScopeId} {es : List Expr} {m m' : Machine} {vs : List Value}
    (hm : m.Sound) (hscope : scope < m.scopes.size)
    (h : Eval.all (eval n) scope es m = (.value vs, m')) :
    m'.Sound ∧ m.scopes.size ≤ m'.scopes.size ∧ AllSound m'.scopes.size vs := by
  have hends := safe_all (eval_safe n) hscope es m hm (Nat.le_refl _)
  rw [h] at hends
  exact ⟨hends.sound, hends.size_le, hends.value vs rfl⟩

theorem eval_sound {n : Nat} {scope : ScopeId} {e : Expr} {m m' : Machine} {v : Value}
    (hm : m.Sound) (hscope : scope < m.scopes.size) (h : eval n scope e m = (.value v, m')) :
    m'.Sound ∧ m.scopes.size ≤ m'.scopes.size ∧ v.Sound m'.scopes.size := by
  have hends := eval_safe n m.scopes.size scope e hscope m hm (Nat.le_refl _)
  rw [h] at hends
  exact ⟨hends.sound, hends.size_le, hends.value v rfl⟩

theorem Moved.sound {n : Nat} {scope : ScopeId} {m m' : Machine} (h : Moved n scope m m')
    (hm : m.Sound) (hscope : scope < m.scopes.size) : m'.Sound ∧ scope < m'.scopes.size := by
  induction h with
  | refl => exact ⟨hm, hscope⟩
  | tail _ hmoves ih =>
    rcases hmoves with ⟨e, v, heval⟩ | ⟨name, x, rfl⟩
    · obtain ⟨hsound, hle, -⟩ := eval_sound ih.1 ih.2 heval
      exact ⟨hsound, Nat.lt_of_lt_of_le ih.2 hle⟩
    · refine ⟨ih.1.set scope name (Value.sound_number x), ?_⟩
      rw [Machine.size_set]
      exact ih.2

namespace Job

variable {j k : Job} {f : Closure}

/-- The function closes over a scope that exists, and the arguments are sound. -/
theorem Calls.sound (h : j.Calls f k) (hj : j.Sound) : k.Sound := by
  cases h with
  | @intro n scope inner callee es p m m₁ m₂ m₃ f vs hcallee harguments harity henter =>
    obtain ⟨hm₁, hle₁, hf⟩ := eval_sound hj.machine hj.scope hcallee
    obtain ⟨hm₂, hle₂, hvs⟩ := all_sound hm₁ (Nat.lt_of_lt_of_le hj.scope hle₁) harguments
    have hclosure : f.scope < m₂.scopes.size := Nat.lt_of_lt_of_le (hf.closures f .self) hle₂
    have hrecorded : (m₂.record (.called f.displayName vs.length)).Sound := hm₂.of_scopes_eq rfl
    have hends := safe_enter hclosure f.displayName p f.params hvs _ hrecorded (Nat.le_refl _)
    rw [henter] at hends
    exact ⟨hends.sound, hends.value inner rfl⟩

theorem Starts.sound (h : j.Starts k) (hj : j.Sound) : k.Sound := by
  obtain ⟨n, scope, e, m⟩ := j
  obtain ⟨n, rfl, hstarts⟩ := h
  rcases inside_or_calls hstarts with hinside | ⟨f, hcalls⟩
  · obtain ⟨hsound, hlt⟩ := hinside.moved.sound hj.machine hj.scope
    refine ⟨hsound, ?_⟩
    rw [hinside.scope_eq]
    exact hlt
  · exact hcalls.sound hj

theorem During.sound (h : j.During k) (hj : j.Sound) : k.Sound := by
  induction h with
  | refl => exact hj
  | tail _ hstarts ih => exact hstarts.sound ih

/-! ### Programs as jobs -/

/-- To run the program in a scope is to carry out the job: the text has been split into tokens, the
tokens have been read as a tree, and the tree is evaluated on the machine after that. -/
inductive OfProgram (n : Nat) (scope : ScopeId) (source : String) (m : Machine) : Job → Prop
  | intro {tokens : List Located} {tree : Expr} {m₁ m₂ : Machine}
    (htokens : readTokens source m = (.value tokens, m₁))
    (htree : readProgram tokens (m₁.record (.tokensReady tokens.length)) = (.value tree, m₂)) :
    OfProgram n scope source m ⟨n, scope, tree, m₂.record (.programReady tree)⟩

/-- Evaluating that job is what running the program comes to. -/
theorem OfProgram.runIn_eq {n : Nat} {scope : ScopeId} {source : String} {m : Machine}
    (h : OfProgram n scope source m j) :
    runIn n scope source m = (j.reply.1.mapError .fault, j.reply.2) := by
  cases h with
  | intro htokens htree =>
    simp only [runIn, Run.bind_apply, htokens, Run.modify, htree]
    rfl

/-- Reading a program changes nothing but the log. -/
theorem OfProgram.scopes_eq {n : Nat} {scope : ScopeId} {source : String} {m : Machine}
    (h : OfProgram n scope source m j) : j.machine.scopes = m.scopes := by
  cases h with
  | @intro tokens tree m₁ m₂ htokens htree =>
    have hread : m₁.scopes = m.scopes := by
      unfold readTokens at htokens
      split at htokens
      · cases htokens
        rfl
      · cases htokens
    rw [← hread]
    obtain ⟨-, rfl⟩ := Prod.mk.inj htree
    rfl

theorem OfProgram.sound {n : Nat} {scope : ScopeId} {source : String} {m : Machine}
    (h : OfProgram n scope source m j) (hm : m.Sound) (hscope : scope < m.scopes.size) :
    j.Sound := by
  refine ⟨hm.of_scopes_eq h.scopes_eq, ?_⟩
  rw [h.scopes_eq]
  cases h with
  | intro => exact hscope

end Job

/-! ### Calls -/

namespace Eval

variable {scope : ScopeId} {name : String} {vs : List Value} {p : Position} {m : Machine}
  {b : Builtin}

theorem callBuiltin_of_arity (hb : Builtin.ofName? name = some b) (harity : vs.length = b.arity) :
    callBuiltin scope name vs p m =
      lift scope p (b.apply m.clock vs).1 ((b.apply m.clock vs).2.foldl Machine.record m) := by
  have hok : checkArity b.name b.arity vs.length = .ok () := checkArity_eq_ok_iff.mpr harity
  unfold callBuiltin
  rw [hb]
  show (lift scope p (checkArity b.name b.arity vs.length) >>= _) m = _
  rw [hok]
  rfl

theorem callBuiltin_of_wrong_arity (hb : Builtin.ofName? name = some b) {cause : Cause}
    (h : checkArity b.name b.arity vs.length = .error cause) :
    callBuiltin scope name vs p m = (.error ⟨cause, p, scope⟩, m) := by
  unfold callBuiltin
  rw [hb]
  show (lift scope p (checkArity b.name b.arity vs.length) >>= _) m = _
  rw [h]
  rfl

end Eval

namespace Job

variable {j : Job}

/-- The job is a call whose callee has turned out to be the built-in function of this name. The
arguments have been evaluated, and the machine is the one after that. -/
inductive CallsBuiltIn : Job → String → List Value → Machine → Prop
  | intro {n : Nat} {scope : ScopeId} {callee : Expr} {es : List Expr} {p : Position}
    {m m₁ m₂ : Machine} {name : String} {vs : List Value}
    (hcallee : eval n scope callee m = (.value (.builtIn name), m₁))
    (harguments : Eval.all (eval n) scope es m₁ = (.value vs, m₂)) :
    CallsBuiltIn ⟨n + 1, scope, .call callee es p, m⟩ name vs m₂

/-- The code of the built-in function runs: the job has its result and its entries in the log. -/
def Handles (j : Job) (b : Builtin) (vs : List Value) (m : Machine) : Prop :=
  j.reply = Eval.lift j.scope j.expr.position (b.apply m.clock vs).1
    ((b.apply m.clock vs).2.foldl Machine.record m)

/-- The code of the built-in function does not run: the job fails because of the number of arguments
and changes nothing. -/
def Refuses (j : Job) (b : Builtin) (vs : List Value) (m : Machine) : Prop :=
  ∃ cause, checkArity b.name b.arity vs.length = .error cause ∧
    j.reply = (.error ⟨cause, j.expr.position, j.scope⟩, m)

variable {name : String} {vs : List Value} {m : Machine}

/-- A sound job finds the code, and runs it exactly if the number of arguments is right. -/
theorem CallsBuiltIn.outcome (h : j.CallsBuiltIn name vs m) (hj : j.Sound) :
    ∃ b, Builtin.ofName? name = some b ∧ b ∈ Builtin.all ∧ b.name = name ∧
      ((vs.length = b.arity ∧ j.Handles b vs m) ∨ (vs.length ≠ b.arity ∧ j.Refuses b vs m)) := by
  cases h with
  | @intro n scope callee es p m₀ m₁ _ _ _ hcallee harguments =>
    obtain ⟨-, -, hf⟩ := eval_sound hj.machine hj.scope hcallee
    obtain ⟨b, hb⟩ := (hf.builtIns name .self).ofName?
    have hname : b.name = name := beq_iff_eq.mp (List.find?_some hb :)
    -- callee and arguments are known, what remains is the call
    have hreply : Job.reply ⟨n + 1, scope, .call callee es p, m₀⟩ =
        Eval.callBuiltin scope name vs p m := by
      show (eval n scope callee >>= _) m₀ = _
      rw [Run.bind_apply, hcallee]
      show (Eval.all (eval n) scope es >>= _) m₁ = _
      rw [Run.bind_apply, harguments]
      rfl
    refine ⟨b, hb, List.mem_of_find?_eq_some hb, hname, ?_⟩
    unfold Handles Refuses
    rw [hreply]
    by_cases harity : vs.length = b.arity
    · exact .inl ⟨harity, Eval.callBuiltin_of_arity hb harity⟩
    · rcases hchecked : checkArity b.name b.arity vs.length with cause | u
      · exact .inr ⟨harity, cause, rfl, Eval.callBuiltin_of_wrong_arity hb hchecked⟩
      · exact absurd (checkArity_eq_ok_iff.mp hchecked) harity

end Job

/-- **No unknown built-in functions.** Whatever programs have been run one after another: every
built-in function that is bound somewhere or was returned, at whatever depth of lists, is one of
those there are. No program that is run now fails because a built-in function is unknown, and
whenever one calls a built-in function, its code runs exactly if it gets as many arguments as it has
parameters. -/
theorem unknown_builtin_unreachable {m : Machine} {returned : List Value} (h : Reachable m returned) :
    (∀ i x v name, m.scopes.own? i x = some v → v.HoldsBuiltIn name → Builtin.Listed name) ∧
    (∀ v ∈ returned, ∀ name, v.HoldsBuiltIn name → Builtin.Listed name) ∧
    ∀ clock n scope source, scope < m.scopes.size →
      (∀ fault m', runIn n scope source (m.atInstant clock) = (.error (.fault fault), m') →
        ∀ name, fault.cause ≠ .unknownBuiltIn name) ∧
      ∀ program j, Job.OfProgram n scope source (m.atInstant clock) program → program.During j →
        ∀ name vs m₁, j.CallsBuiltIn name vs m₁ →
          ∃ b, Builtin.ofName? name = some b ∧ b ∈ Builtin.all ∧ b.name = name ∧
            ((vs.length = b.arity ∧ j.Handles b vs m₁) ∨
              (vs.length ≠ b.arity ∧ j.Refuses b vs m₁)) := by
  obtain ⟨hsound, hreturned⟩ := h.sound
  refine ⟨?_, fun v hv => (hreturned v hv).builtIns, ?_⟩
  · intro i x v name hv
    exact (hsound.bound i x v hv).builtIns name
  · intro clock n scope source hscope
    have hnow : (m.atInstant clock).Sound := hsound.of_scopes_eq rfl
    constructor
    · intro fault m' hrun
      obtain ⟨tree, log, heval⟩ := eval_of_runIn_fault hrun
      have hends := eval_safe n m.scopes.size scope tree hscope ((m.atInstant clock).note log)
        (hnow.of_scopes_eq rfl) (Nat.le_refl _)
      rw [heval] at hends
      exact (hends.fault fault rfl).cause
    · intro program j hprogram hduring name vs m₁ hcalls
      exact hcalls.outcome (hduring.sound (hprogram.sound hnow hscope))

mutual

/-- The built-in functions in a value, at whatever depth of lists. -/
def Value.builtInNames : Value → List String
  | .number _ => []
  | .text _ => []
  | .list vs => Value.builtInNamesOf vs
  | .function _ => []
  | .builtIn name => [name]

/-- The built-in functions in several values. -/
def Value.builtInNamesOf : List Value → List String
  | [] => []
  | v :: vs => v.builtInNames ++ Value.builtInNamesOf vs

end

mutual

theorem Value.holdsBuiltIn_of_mem {name : String} (v : Value) (h : name ∈ v.builtInNames) :
    v.HoldsBuiltIn name := by
  match v with
  | .builtIn _ =>
    obtain rfl := List.mem_singleton.mp h
    exact .self
  | .list vs =>
    obtain ⟨v, hv, hholds⟩ := Value.exists_holdsBuiltIn_of_mem vs h
    exact .element hv hholds
termination_by structural v

theorem Value.exists_holdsBuiltIn_of_mem {name : String} (vs : List Value)
    (h : name ∈ Value.builtInNamesOf vs) : ∃ v ∈ vs, v.HoldsBuiltIn name := by
  match vs with
  | v :: vs =>
    obtain hv | hvs := List.mem_append.mp h
    · exact ⟨v, List.mem_cons_self, Value.holdsBuiltIn_of_mem v hv⟩
    · obtain ⟨w, hw, hholds⟩ := Value.exists_holdsBuiltIn_of_mem vs hvs
      exact ⟨w, List.mem_cons_of_mem _ hw, hholds⟩
termination_by structural vs

end

/-- The machine after built-in functions were put into a list. -/
def builtInsStored : Machine :=
  (runIn 20 Machine.root "VAR fs = [LEN, PRINT]" (Machine.global ⟨0, 0⟩)).2

/-- What the call of a function from the list comes to. -/
def storedCall : Outcome Error Value × Machine :=
  runIn 20 Machine.root "(fs / 0)(fs, fs)" (builtInsStored.atInstant ⟨1, 0⟩)

/-- A function from the list is found, and refuses one argument too many. -/
theorem stored_builtin_found :
    (∃ v, builtInsStored.scopes.own? Machine.root "fs" = some v ∧ v.HoldsBuiltIn "LEN") ∧
    Builtin.Listed "LEN" ∧ ∃ fault m',
      runIn 20 Machine.root "(fs / 0)(fs, fs)" (builtInsStored.atInstant ⟨1, 0⟩) =
        (.error (.fault fault), m') ∧
      fault.cause.message = "Too many arguments passed to 'LEN': expected 1, found 2" ∧
      ∀ name, fault.cause ≠ .unknownBuiltIn name := by
  have hreachable : Reachable builtInsStored _ :=
    (Reachable.start ⟨0, 0⟩).run ⟨0, 0⟩ 20 (by decide : Machine.root < _) _
  obtain ⟨hbound, -, hruns⟩ := unknown_builtin_unreachable hreachable
  have hstored : ((builtInsStored.scopes.own? Machine.root "fs").any
      fun v => "LEN" ∈ v.builtInNames) = true := by decide +kernel
  obtain ⟨v, hown, hmem⟩ := (Option.any_eq_true _ _).mp hstored
  have hholds := v.holdsBuiltIn_of_mem (of_decide_eq_true hmem)
  have hfails : (storedCall.1.fault?.any fun fault =>
      fault.cause.message = "Too many arguments passed to 'LEN': expected 1, found 2") = true := by
    decide +kernel
  obtain ⟨fault, hrun, hmessage⟩ := Outcome.exists_fault hfails
  have hroot : Machine.root < builtInsStored.scopes.size := by decide +kernel
  exact ⟨⟨v, hown, hholds⟩, hbound _ _ v "LEN" hown hholds, fault, _, hrun,
    of_decide_eq_true hmessage,
    (hruns ⟨1, 0⟩ 20 Machine.root "(fs / 0)(fs, fs)" hroot).1 fault _ hrun⟩

end LineScript
