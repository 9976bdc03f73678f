import LineScript.Proofs.Evaluation.Instants
import LineScript.Proofs.Evaluation.Lexical

/-!
# Programs that can be run again

A program that binds no name outside its functions does the same when it is run a second time. What
its functions bind is bound in scopes of their own, which the first run leaves behind and the second
one never looks at.

  * `BindsNothing source`: outside function bodies the program has no `VAR`, no `FOR` and no function
    with a name.
  * `Scopes.Closed scopes`: nothing in the store points outside it. `Scopes.Keeps scopes scopes'`: all
    scopes of the first store are in the second one with the same parents and values.
  * `Renaming.keep size`: each of the first `size` scopes stays what it is.
  * `Renaming.Repeats ρ scopes scopes₁ scopes₂`: of two runs one after the other, the scopes that the
    first created become scopes that the second created, and all older ones stay what they are.
  * `EndsAgain m reply reply'`: the second run ends as the first did.

**Key idea.** The second run starts on a larger store. But the scopes that were there before are as
they were, and they refer only to each other: nothing leads from them to what the first run created.
So the renaming that leaves them as they are is one of stores that mirror each other, and from there
on the two runs go in lockstep.
-/

namespace LineScript

open Run

/-- Outside function bodies nothing in the program binds a name: there is no `VAR`, no `FOR` and no
function with a name. -/
def BindsNothing (source : String) : Prop :=
  ∀ tree ∈ treeOf? source, ∀ node ∈ tree.nodes, node.target? = none

instance (source : String) : Decidable (BindsNothing source) :=
  inferInstanceAs (Decidable (∀ tree ∈ treeOf? source, ∀ node ∈ tree.nodes, node.target? = none))

/-! ### Stores -/

/-- Nothing in the store points outside it. So it is with every store that there can be: a scope is
created inside one that exists, and a function closes over the scope in which it is defined. -/
structure Scopes.Closed (scopes : Scopes) : Prop where
  /-- Parents are older than their children. -/
  parents : scopes.Grown
  /-- Functions that are bound close over scopes of the store. -/
  closures : ∀ i name v f, scopes.own? i name = some v → v.Holds f → f.scope < scopes.size

theorem Machine.Sound.closed {m : Machine} (h : m.Sound) : m.scopes.Closed := by
  refine ⟨?_, fun i name v f hv hf => (h.bound i name v hv).closures f hf⟩
  intro i p hparent
  have hi : i < m.scopes.size := by
    obtain ⟨s, hs, -⟩ := Option.bind_eq_some_iff.mp hparent
    exact (Array.getElem?_eq_some_iff.mp hs).1
  exact h.rooted.parent_lt hi hparent

/-- Every scope of the first store is in the second one, with the same label, parent and values. -/
structure Scopes.Keeps (scopes scopes' : Scopes) : Prop where
  /-- No scope has disappeared. -/
  size_le : scopes.size ≤ scopes'.size
  /-- The labels are the same. -/
  label : ∀ i < scopes.size, scopes'.label? i = scopes.label? i
  /-- The parents are the same. -/
  parent : ∀ i < scopes.size, scopes'.parent? i = scopes.parent? i
  /-- The same names are bound to the same values. -/
  own : ∀ i < scopes.size, ∀ name, scopes'.own? i name = scopes.own? i name

theorem Scopes.Keeps.refl (scopes : Scopes) : scopes.Keeps scopes :=
  ⟨Nat.le_refl _, fun _ _ => rfl, fun _ _ => rfl, fun _ _ _ => rfl⟩

/-- Every name has, seen from the scopes of the first machine, the same value on the second one. -/
def Machine.KeepsLookups (m m' : Machine) : Prop :=
  ∀ i < m.scopes.size, ∀ name, m'.lookup i name = m.lookup i name

section keeps

variable {m m' : Machine}

/-- What may not bind any name binds none in its own scope either. -/
theorem Machine.Confined.keeps {scope : ScopeId} {nodes : List Expr}
    (h : m.Confined scope (Targets nodes) m') (hnone : ∀ node ∈ nodes, node.target? = none) :
    m.scopes.Keeps m'.scopes := by
  have hno : ∀ name, ¬ Targets nodes name := by
    rintro name ⟨node, hmem, htarget⟩
    rw [hnone node hmem] at htarget
    cases htarget
  refine ⟨h.size_le, ?_, ?_, ?_⟩
  · intro i hi
    by_cases hne : i = scope
    · rw [hne, h.label]
    · rw [Forest.label?, Forest.label?, h.others i hi hne]
  · intro i hi
    by_cases hne : i = scope
    · rw [hne, h.parent]
    · rw [Forest.parent?, Forest.parent?, h.others i hi hne]
  · intro i hi name
    by_cases hne : i = scope
    · rw [hne, h.elsewhere name (hno name)]
    · rw [Forest.own?, Forest.own?, h.others i hi hne]

theorem Scopes.Keeps.keepsLookups (h : m.scopes.Keeps m'.scopes) (hgrown : m.scopes.Grown) :
    m.KeepsLookups m' := by
  intro i hi name
  -- parents are older, so a lookup stays among the scopes that are kept
  have hupTo : ∀ limit i, i < m.scopes.size →
      m'.scopes.lookupUpTo name limit i = m.scopes.lookupUpTo name limit i := by
    intro limit
    induction limit with
    | zero => exact fun _ _ => rfl
    | succ limit ih =>
      intro i hi
      rw [Forest.lookupUpTo, Forest.lookupUpTo, h.own i hi name, h.parent i hi]
      cases m.scopes.own? i name with
      | some v => rfl
      | none =>
        cases hparent : m.scopes.parent? i with
        | some p => exact ih p (Nat.lt_trans (hgrown i p hparent) hi)
        | none => rfl
  exact hupTo (i + 1) i hi

end keeps

/-! ### Scopes that stay what they are -/

namespace Renaming

/-- Each of the first scopes stays what it is. -/
def keep (size : Nat) : Renaming where
  pairs i j := i = j ∧ i < size
  unique := by
    rintro i i' j j' ⟨rfl, -⟩ ⟨rfl, -⟩
    exact Iff.rfl

mutual

theorem likeValue_keep {size : Nat} : ∀ v : Value, (∀ f, v.Holds f → f.scope < size) →
    (keep size).LikeValue v v
  | .number x, _ => .number x
  | .text s, _ => .text s
  | .list vs, h => .list (likeValues_keep vs fun _ hv f hf => h f (.element hv hf))
  | .function f, h => .function ⟨rfl, rfl, rfl, rfl, h f .self⟩
  | .builtIn name, _ => .builtIn name
termination_by structural v => v

theorem likeValues_keep {size : Nat} : ∀ vs : List Value,
    (∀ v ∈ vs, ∀ f, v.Holds f → f.scope < size) → List.Forall₂ (keep size).LikeValue vs vs
  | [], _ => .nil
  | v :: vs, h => by
    obtain ⟨hv, hvs⟩ := List.forall_mem_cons.mp h
    exact .cons (likeValue_keep v hv) (likeValues_keep vs hvs)
termination_by structural vs => vs

end

variable {m m' : Machine} {before before' : List String}

/-- A store that keeps all scopes of a closed one mirrors it. -/
theorem mirrors_of_keeps (h : m.scopes.Keeps m'.scopes) (hm : m.scopes.Closed)
    (hgrown : m'.scopes.Grown) (hprinted : PrintsLike before before' m.log m'.log)
    (hclock : m'.clock = m.clock) : (keep m.scopes.size).Mirrors before before' m m' := by
  refine ⟨hm.parents, hgrown, ?_, hprinted, hclock⟩
  -- each scope refers only to scopes that were there, and these are renamed to themselves
  rintro i _ ⟨rfl, hi⟩
  have hi' : i < m'.scopes.size := Nat.lt_of_lt_of_le hi h.size_le
  obtain ⟨s, hs⟩ : ∃ s, m.scopes.scopes[i]? = some s := ⟨_, Array.getElem?_eq_getElem hi⟩
  obtain ⟨s', hs'⟩ : ∃ s, m'.scopes.scopes[i]? = some s := ⟨_, Array.getElem?_eq_getElem hi'⟩
  have hlabel := h.label i hi
  have hparent := h.parent i hi
  have hown := h.own i hi
  have hparents := hm.parents i
  have hclosures := hm.closures i
  simp only [Forest.label?, Forest.parent?, Forest.own?, hs, hs', Option.map_some, Option.bind_some,
    Option.some.injEq] at hlabel hparent hown hparents hclosures
  refine ⟨s, s', hs, hs', hlabel, ?_, ?_⟩
  · rw [hparent]
    cases hp : s.parent with
    | none => exact .none
    | some p => exact .some ⟨rfl, Nat.lt_trans (hparents p hp) hi⟩
  · intro name
    rw [hown name]
    cases hv : s.bindings.get? name with
    | none => exact .none
    | some v => exact .some (likeValue_keep v fun f => hclosures name v f hv)

/-- How a second run repeats a first one, where the three stores are those before the first run,
between the two, and after the second: scopes that the first run created become scopes that the second
one created, and all older ones stay what they are. -/
structure Repeats (ρ : Renaming) (scopes scopes₁ scopes₂ : Scopes) : Prop where
  /-- What was there before the first run stays what it is. -/
  old : ∀ i < scopes.size, ρ.pairs i i
  /-- What else is renamed was created by the first run, and becomes something that was created by
  the second. -/
  new : ∀ i j, ρ.pairs i j → (i = j ∧ i < scopes.size) ∨ (scopes.size ≤ i ∧ scopes₁.size ≤ j)
  /-- Renamed scopes are the same. -/
  like : ∀ i j, ρ.pairs i j → ρ.LikeAt scopes₁ scopes₂ i j

/-- Two runs in lockstep repeat each other. -/
theorem Later.repeats {ρ : Renaming} {m₁ m₂ : Machine}
    (hlater : (keep m.scopes.size).Later m m' ρ m₁ m₂) (hmirrors : ρ.Mirrors before before' m₁ m₂)
    (hbetween : m₁.scopes = m'.scopes) : ρ.Repeats m.scopes m'.scopes m₂.scopes := by
  refine ⟨fun i hi => hlater.le i i ⟨rfl, hi⟩, hlater.fresh, ?_⟩
  rw [← hbetween]
  exact hmirrors.scopes

end Renaming

open Renaming

/-! ### Two evaluations -/

section evaluations

variable {n : Nat} {scope : ScopeId} {e : Expr} {m m' : Machine} {before before' : List String}

/-- On a store that keeps all scopes of a closed one, an expression is evaluated in lockstep with the
evaluation there. -/
theorem lockstep_of_keeps (h : m.scopes.Keeps m'.scopes) (hm : m.scopes.Closed)
    (hgrown : m'.scopes.Grown) (hscope : scope < m.scopes.size)
    (hprinted : PrintsLike before before' m.log m'.log) (hclock : m'.clock = m.clock) :
    EndLockstep (keep m.scopes.size) before before' m m' LikeValue (eval n scope e m)
      (eval n scope e m') := by
  have hpair : (keep m.scopes.size).pairs scope scope := ⟨rfl, hscope⟩
  exact eval_renames n e hpair before before' m m' (mirrors_of_keeps h hm hgrown hprinted hclock)

/-- An evaluation that ends leaves parents older than their children. -/
theorem grown_of_ends (hm : m.scopes.Closed) (hscope : scope < m.scopes.size)
    {outcome : Outcome Fault Value} {m₁ : Machine} (heval : eval n scope e m = (outcome, m₁))
    (hends : outcome ≠ .exhausted) : m₁.scopes.Grown := by
  -- the evaluation is in lockstep with itself
  have hend : EndLockstep (keep m.scopes.size) (Log.printed m.log) (Log.printed m.log) m m LikeValue
      (eval n scope e m) (eval n scope e m) :=
    lockstep_of_keeps (.refl _) hm hm.parents hscope ⟨[], by rw [List.append_nil], by
      rw [List.append_nil]⟩ rfl
  rw [heval] at hend
  cases hend with
  | value _ _ mirrors => exact mirrors.grown
  | error _ _ mirrors => exact mirrors.grown
  | exhausted => exact absurd rfl hends

end evaluations

/-! ### Two runs -/

/-- How a program is read does not depend on the machine: it is a job on the machine with some
entries in its log, or there is an error and nothing but these entries. -/
theorem runIn_reading (source : String) : ∃ log : Log,
    (∃ tree, ∀ n scope m, Job.OfProgram n scope source m ⟨n, scope, tree, m.note log⟩) ∨
    ∃ e : Error, (∀ fault, e ≠ .fault fault) ∧
      ∀ n scope m, runIn n scope source m = (.error e, m.note log) := by
  rcases htokens : tokenize source with e | tokens
  · refine ⟨[], .inr ⟨.lexical e, fun fault h => ?_, fun n scope m => ?_⟩⟩
    · cases h
    simp only [runIn, Run.bind_apply, readTokens, htokens]
    rfl
  have hread (m : Machine) : readTokens source m =
      (.value tokens, m.record (.tokenized source.length tokens.length)) := by
    simp only [readTokens, htokens]
  rcases hreply : parse tokens with ⟨outcome, c⟩
  have hlog (m : Machine) : readProgram tokens m = (outcome.mapError .structural, m.note c.log) := by
    simp only [readProgram, hreply]
    rfl
  cases outcome with
  | value tree =>
    refine ⟨.programReady tree :: (c.log ++
      [.tokensReady tokens.length, .tokenized source.length tokens.length]),
      .inl ⟨tree, fun n scope m => ?_⟩⟩
    have hnote : m.note (.programReady tree :: (c.log ++
          [.tokensReady tokens.length, .tokenized source.length tokens.length])) =
        (((m.record (.tokenized source.length tokens.length)).record
          (.tokensReady tokens.length)).note c.log).record (.programReady tree) := by
      simp only [Machine.note, Machine.record, List.append_assoc, List.cons_append, List.nil_append]
    rw [hnote]
    exact .intro (hread m) (hlog _)
  | error e =>
    refine ⟨c.log ++ [.tokensReady tokens.length, .tokenized source.length tokens.length],
      .inr ⟨.structural e, fun fault h => ?_, fun n scope m => ?_⟩⟩
    · cases h
    simp only [runIn, Run.bind_apply, hread, Run.modify, hlog, Outcome.mapError, Machine.note,
      Machine.record, List.append_assoc, List.cons_append, List.nil_append]
  | exhausted =>
    have hends : (parse tokens).1 ≠ .exhausted :=
      parse_ne_exhausted (endsOnce_of_tokenize htokens).1
    exact absurd (congrArg Prod.fst hreply) hends

/-- How the second of two runs ends, from `m` to `m₁` and on to `m₂`: as the first one did. -/
inductive EndsAgain (m : Machine) :
    Outcome Error Value × Machine → Outcome Error Value × Machine → Prop
  /-- With the same value, up to the scopes that the runs created. -/
  | value {ρ : Renaming} {v v' : Value} {m₁ m₂ : Machine}
    (repeats : ρ.Repeats m.scopes m₁.scopes m₂.scopes) (like : ρ.LikeValue v v') :
    EndsAgain m (.value v, m₁) (.value v', m₂)
  /-- With a fault of the same cause at the same place, which went the same way. -/
  | fault {ρ : Renaming} {f f' : Fault} {m₁ m₂ : Machine}
    (repeats : ρ.Repeats m.scopes m₁.scopes m₂.scopes) (like : ρ.LikeFault f f')
    (trail : f'.trail m₂.scopes = f.trail m₁.scopes) :
    EndsAgain m (.error (.fault f), m₁) (.error (.fault f'), m₂)
  /-- With the same error, since the program cannot be read. -/
  | unreadable {e : Error} {m₁ m₂ : Machine} (hread : ∀ f, e ≠ .fault f) :
    EndsAgain m (.error e, m₁) (.error e, m₂)

section runs

variable {n : Nat} {scope : ScopeId} {source : String} {m m₁ m₂ : Machine}

/-- Two evaluations of an expression that binds nothing, each after the same entries in the log. -/
theorem evaluation_reruns {e : Expr} {log : Log} {outcome outcome' : Outcome Fault Value}
    (hnone : ∀ node ∈ e.nodes, node.target? = none) (hm : m.scopes.Closed)
    (hscope : scope < m.scopes.size) (htimeless : Timeless (eval n scope e) (m.note log))
    (hfirst : eval n scope e (m.note log) = (outcome, m₁)) (hends : outcome ≠ .exhausted)
    {clock : Instant} (hsecond : eval n scope e ((m₁.atInstant clock).note log) = (outcome', m₂)) :
    EndsAgain m (outcome.mapError .fault, m₁) (outcome'.mapError .fault, m₂) ∧
    PrintsLike (Log.printed m.log) (Log.printed m₁.log) m₁.log m₂.log ∧
    m.KeepsLookups m₁ ∧ m₁.KeepsLookups m₂ := by
  -- nothing that was there changes, neither in the first run nor in the second
  have hkeeps : m.scopes.Keeps m₁.scopes := by
    have hframed := eval_framed n scope e (m.note log) hscope
    rw [hfirst] at hframed
    exact hframed.keeps hnone
  have hkeeps' : m₁.scopes.Keeps m₂.scopes := by
    have hscope₁ : scope < m₁.scopes.size := Nat.lt_of_lt_of_le hscope hkeeps.size_le
    have hframed := eval_framed n scope e ((m₁.atInstant clock).note log) hscope₁
    rw [hsecond] at hframed
    exact hframed.keeps hnone
  have hgrown : m₁.scopes.Grown := by
    have hclosed : (m.note log).scopes.Closed := hm
    exact grown_of_ends hclosed hscope hfirst hends
  -- the first run might as well have been at the instant of the second
  have hstart : ((m.note log).atInstant clock).scopes.Keeps ((m₁.atInstant clock).note log).scopes :=
    hkeeps
  have hprinted : PrintsLike (Log.printed m.log) (Log.printed m₁.log)
      ((m.note log).atInstant clock).log ((m₁.atInstant clock).note log).log :=
    ⟨Log.printed log, Log.printed_append _ _, Log.printed_append _ _⟩
  have hend := lockstep_of_keeps (n := n) (e := e) hstart hm hgrown hscope hprinted rfl
  rw [htimeless clock, hfirst, hsecond] at hend
  refine and_assoc.mp ⟨?_, hkeeps.keepsLookups hm.parents, hkeeps'.keepsLookups hgrown⟩
  cases hend with
  | value later like mirrors =>
    exact ⟨.value (later.repeats mirrors rfl) like, mirrors.printed⟩
  | @error _ f f' _ _ later like mirrors =>
    have htrail : f'.trail m₂.scopes = f.trail (m₁.atInstant clock).scopes := like.trail mirrors
    exact ⟨.fault (later.repeats mirrors rfl) like htrail, mirrors.printed⟩
  | exhausted => exact absurd rfl hends

/-- **Programs that bind nothing can be run again.** Take a program that, outside its functions, has
no `VAR`, no `FOR` and no function with a name, and run it in any scope of any store. If it ends, and
`NOW` is not called on the way, then a second run right after the first one ends as well, whatever
time it is by then: with the same value, where scopes that the first run created are replaced by
scopes that the second one created, or with an error of the same kind at the same place. It prints
the same lines. And after each run every name has the same value as before, seen from every scope
that there was. -/
theorem pure_program_reruns {outcome outcome' : Outcome Error Value} (hpure : BindsNothing source)
    (hm : m.scopes.Closed) (hscope : scope < m.scopes.size)
    (hnow : ∀ program j vs m', Job.OfProgram n scope source m program → program.During j →
      ¬ j.CallsBuiltIn "NOW" vs m')
    (hfirst : runIn n scope source m = (outcome, m₁)) (hends : outcome ≠ .exhausted)
    (clock : Instant) (hsecond : runIn n scope source (m₁.atInstant clock) = (outcome', m₂)) :
    EndsAgain m (outcome, m₁) (outcome', m₂) ∧
    (∃ lines, Log.printed m₁.log = Log.printed m.log ++ lines ∧
      Log.printed m₂.log = Log.printed m₁.log ++ lines) ∧
    m.KeepsLookups m₁ ∧ m₁.KeepsLookups m₂ := by
  -- both runs read the same tree, or neither can be read
  obtain ⟨log, ⟨tree, hjob⟩ | ⟨e, hread, hrun⟩⟩ := runIn_reading source
  · have hprogram := hjob n scope m
    have htimeless : Timeless (eval n scope tree) (m.note log) :=
      Job.timeless_of_no_now ⟨n, scope, tree, m.note log⟩ fun j hj vs m' =>
        hnow _ j vs m' hprogram hj
    rw [hprogram.runIn_eq] at hfirst
    rw [(hjob n scope (m₁.atInstant clock)).runIn_eq] at hsecond
    obtain ⟨rfl, rfl⟩ := Prod.mk.inj hfirst
    obtain ⟨rfl, rfl⟩ := Prod.mk.inj hsecond
    exact evaluation_reruns (hpure tree hprogram.treeOf?_eq) hm hscope htimeless rfl
      (mapError_ne_exhausted.mp hends) rfl
  · rw [hrun] at hfirst hsecond
    obtain ⟨rfl, rfl⟩ := Prod.mk.inj hfirst
    obtain ⟨rfl, rfl⟩ := Prod.mk.inj hsecond
    exact ⟨.unreadable hread, ⟨Log.printed log, Log.printed_append _ _, Log.printed_append _ _⟩,
      fun _ _ _ => rfl, fun _ _ _ => rfl⟩

end runs

/-- A function is called that returns a function of its own, prints what it was given and rebinds it
in a loop. -/
def rebindingProgram : String :=
  "(FUNCTION (x)\nFUNCTION () => x\nPRINT(x)\nWHILE x THEN VAR x = \"\"\nEND)(\"hi\")"

/-- The program is run in the scope of a program. -/
def rebindingRun (m : Machine) : Outcome Error Value × Machine :=
  runIn 20 Machine.root rebindingProgram m

/-- The two runs give the same function, each in the scope of its own call. -/
theorem rebinding_program_reruns :
    ∃ (ρ : Renaming) (v v' : Value) (m₁ m₂ : Machine),
      rebindingRun (.global ⟨0, 0⟩) = (.value v, m₁) ∧
      rebindingRun (m₁.atInstant ⟨5, 0⟩) = (.value v', m₂) ∧
      ρ.Repeats (Machine.global ⟨0, 0⟩).scopes m₁.scopes m₂.scopes ∧ ρ.LikeValue v v' ∧
      Log.printed m₂.log = ["hi", "hi"] ∧ m₂.lookup Machine.root "x" = none := by
  have hread : BindsNothing rebindingProgram ∧
      ∀ tree ∈ treeOf? rebindingProgram, tree.Avoids "NOW" := by
    decide +kernel
  have hstart : Machine.root < (Machine.global ⟨0, 0⟩).scopes.size ∧
      ((Machine.global ⟨0, 0⟩).lookup Machine.root "x").isNone = true ∧
      Log.printed (Machine.global ⟨0, 0⟩).log = [] := by
    decide +kernel
  have hbetween : (rebindingRun (.global ⟨0, 0⟩)).1.returned.isEmpty = false ∧
      Log.printed (rebindingRun (.global ⟨0, 0⟩)).2.log = ["hi"] ∧
      Machine.root < (rebindingRun (.global ⟨0, 0⟩)).2.scopes.size := by
    decide +kernel
  rcases hfirst : rebindingRun (.global ⟨0, 0⟩) with ⟨outcome, m₁⟩
  rcases hsecond : rebindingRun (m₁.atInstant ⟨5, 0⟩) with ⟨outcome', m₂⟩
  rw [hfirst] at hbetween
  obtain ⟨hroot, hfree, hquiet⟩ := hstart
  obtain ⟨hvalue, hprinted, hroot'⟩ := hbetween
  have hends : outcome ≠ .exhausted := by
    rintro rfl
    cases hvalue
  obtain ⟨hagain, ⟨lines, hlines, hlines'⟩, hkeeps, hkeeps'⟩ := pure_program_reruns hread.1
    (Machine.sound_global ⟨0, 0⟩).closed hroot
    (fun program j vs m' hprogram hduring =>
      hprogram.no_now hread.2 (Machine.avoids_global "NOW" ⟨0, 0⟩) hduring vs m')
    hfirst hends ⟨5, 0⟩ hsecond
  have hlookup : m₂.lookup Machine.root "x" = none := by
    rw [hkeeps' _ hroot' "x", hkeeps _ hroot "x"]
    exact Option.isNone_iff_eq_none.mp hfree
  have htwice : Log.printed m₂.log = ["hi", "hi"] := by
    rw [hprinted, hquiet, List.nil_append] at hlines
    rw [hlines', hprinted, ← hlines]
    rfl
  cases hagain with
  | value repeats like => exact ⟨_, _, _, m₁, m₂, rfl, hsecond, repeats, like, htwice, hlookup⟩
  | fault => cases hvalue
  | unreadable => cases hvalue

end LineScript
