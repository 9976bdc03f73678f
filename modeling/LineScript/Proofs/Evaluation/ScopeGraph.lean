import LineScript.Proofs.Evaluation.Pieces
import LineScript.Proofs.Evaluation.Soundness
import LineScript.Proofs.Evaluation.Timeless

/-!
# The scopes of programs run one after another

Programs are run one after another on one machine, each in any of the scopes that are there by then,
and any of them may fail. The scopes always form a tree below that of the program.

  * `Reachable m returned`: the machine `m` is left by some sequence of programs, and `returned` are
    the values that these programs gave.
  * `Scopes.Ascent scopes i is`: `is` are the scopes from `i` outwards up to that of the program.
  * `Machine.Linked m`: names are looked up along these ascents and functions close over scopes that
    are there.
  * `Fault.Traced fault scopes`: the trail of the fault has one line for each scope of its ascent.

**Key idea.** All of this follows from soundness, which a program keeps however it ends. A limit on
the length of an ascent is never reached, since the numbers of the scopes go down along it.
-/

namespace LineScript

open Run

/-! ### Programs run one after another -/

/-- The value, if there is one. -/
def Outcome.returned {ε α : Type} : Outcome ε α → List α
  | .value a => [a]
  | _ => []

/-- The machines that programs leave which are run one after another, and all values that these
programs gave. Time may pass between two programs. -/
inductive Reachable : Machine → List Value → Prop
  | start (clock : Instant) : Reachable (Machine.global clock) []
  | run {m : Machine} {returned : List Value} (h : Reachable m returned) (clock : Instant) (n : Nat)
    {scope : ScopeId} (hscope : scope < m.scopes.size) (source : String) :
    Reachable (runIn n scope source (m.atInstant clock)).2
      ((runIn n scope source (m.atInstant clock)).1.returned ++ returned)

/-- A program that cannot be read changes nothing but the log, and one that can be read is evaluated
after some entries in the log. -/
theorem runIn_cases (n : Nat) (scope : ScopeId) (source : String) (m : Machine) :
    (∃ tokens tree log, tokenize source = .ok tokens ∧ (parse tokens).1 = .value tree ∧
      runIn n scope source m = evaluate n scope tree (m.note log)) ∨
    ((runIn n scope source m).2.scopes = m.scopes ∧
      (∀ v, (runIn n scope source m).1 ≠ .value v) ∧
      ∀ fault, (runIn n scope source m).1 ≠ .error (.fault fault)) := by
  rcases htokens : tokenize source with e | tokens
  · right
    simp [runIn, Run.bind_apply, readTokens, htokens]
  · rcases hreply : parse tokens with ⟨tree | e | _, c⟩
    · left
      have hparse : (parse tokens).1 = .value tree := by rw [hreply]
      obtain ⟨log, -, hrun⟩ := runIn_of_parse htokens hparse
      exact ⟨tokens, tree, log, rfl, hparse, hrun n scope m⟩
    · right
      simp [runIn, Run.bind_apply, readTokens, htokens, Run.modify, readProgram, hreply,
        Outcome.mapError, Machine.record]
    · right
      simp [runIn, Run.bind_apply, readTokens, htokens, Run.modify, readProgram, hreply,
        Outcome.mapError, Machine.record]

/-- A program that fails was read and fails when it is evaluated. -/
theorem eval_of_runIn_fault {n : Nat} {scope : ScopeId} {source : String} {m m' : Machine}
    {fault : Fault} (h : runIn n scope source m = (.error (.fault fault), m')) :
    ∃ tree log, eval n scope tree (m.note log) = (.error fault, m') := by
  rcases runIn_cases n scope source m with ⟨_, tree, log, _, _, hrun⟩ | ⟨_, _, hfault⟩
  · refine ⟨tree, log, ?_⟩
    rw [hrun, evaluate] at h
    rcases heval : eval n scope tree (m.note log) with ⟨v | f | _, m₁⟩ <;> rw [heval] at h <;> cases h
    rfl
  · rw [h] at hfault
    exact absurd rfl (hfault fault)

/-- Running a program keeps a machine sound, however it ends. -/
theorem runIn_sound {m : Machine} (hm : m.Sound) (n : Nat) {scope : ScopeId}
    (hscope : scope < m.scopes.size) (source : String) :
    m.scopes.size ≤ (runIn n scope source m).2.scopes.size ∧ (runIn n scope source m).2.Sound ∧
      ∀ v ∈ (runIn n scope source m).1.returned, v.Sound (runIn n scope source m).2.scopes.size := by
  rcases runIn_cases n scope source m with ⟨_, tree, log, _, _, hrun⟩ | ⟨hscopes, hvalue, _⟩
  · have hnote : (m.note log).Sound := hm.of_scopes_eq rfl
    have hends := eval_safe n m.scopes.size scope tree hscope (m.note log) hnote (Nat.le_refl _)
    rw [hrun, evaluate]
    generalize eval n scope tree (m.note log) = reply at hends
    obtain ⟨v | fault | _, m'⟩ := reply
    · exact ⟨hends.size_le, hends.sound, List.forall_mem_singleton.mpr (hends.value v rfl)⟩
    · exact ⟨hends.size_le, hends.sound, List.forall_mem_nil _⟩
    · exact ⟨hends.size_le, hends.sound, List.forall_mem_nil _⟩
  · refine ⟨Nat.le_of_eq (by rw [hscopes]), hm.of_scopes_eq hscopes, ?_⟩
    generalize (runIn n scope source m).1 = outcome at hvalue
    cases outcome with
    | value v => exact absurd rfl (hvalue v)
    | error | exhausted => exact List.forall_mem_nil _

/-- Whatever programs have been run: the machine is sound and so are the values they gave. -/
theorem Reachable.sound {m : Machine} {returned : List Value} (h : Reachable m returned) :
    m.Sound ∧ AllSound m.scopes.size returned := by
  induction h with
  | start clock => exact ⟨Machine.sound_global clock, List.forall_mem_nil _⟩
  | @run m returned _ clock n scope hscope source ih =>
    obtain ⟨hm, hreturned⟩ := ih
    have hnow : (m.atInstant clock).Sound := hm.of_scopes_eq rfl
    obtain ⟨hle, hsound, hvalue⟩ := runIn_sound hnow n hscope source
    refine ⟨hsound, ?_⟩
    intro v hv
    rcases List.mem_append.mp hv with hv | hv
    · exact hvalue v hv
    · exact (hreturned v hv).mono hle

/-! ### Ascents -/

/-- The scopes from one outwards, each the parent of the one before it, up to that of the program,
which has no parent. -/
inductive Scopes.Ascent (scopes : Scopes) : ScopeId → List ScopeId → Prop
  | root (h : scopes.parent? Machine.root = none) : Ascent scopes Machine.root [Machine.root]
  | up {i p : ScopeId} {is : List ScopeId} (hparent : scopes.parent? i = some p)
    (h : Ascent scopes p is) : Ascent scopes i (i :: is)

section rooted

variable {scopes : Scopes} {i p : Nat}

theorem Scopes.Rooted.parent_lt (h : scopes.Rooted) (hi : i < scopes.size)
    (hparent : scopes.parent? i = some p) : p < i := by
  by_cases hroot : i = Machine.root
  · rw [hroot, h.outermost] at hparent
    cases hparent
  · obtain ⟨q, hq, hlt⟩ := h.inner i hi hroot
    rw [hparent] at hq
    cases hq
    exact hlt

/-- There is only one way outwards. -/
theorem Scopes.Ascent.unique {is js : List ScopeId} (h : scopes.Ascent i is)
    (h' : scopes.Ascent i js) : js = is := by
  induction h generalizing js with
  | root hnone =>
    cases h' with
    | root => rfl
    | up hparent =>
      rw [hnone] at hparent
      cases hparent
  | up hparent _ ih =>
    cases h' with
    | root hnone =>
      rw [hnone] at hparent
      cases hparent
    | up hparent' h' =>
      rw [hparent] at hparent'
      cases hparent'
      rw [ih h']

end rooted

/-! ### Trails -/

/-- The frame of the program. -/
def Frame.program : Frame :=
  ⟨Machine.programName, none⟩

section traced

variable {scopes : Scopes} {i : Nat} {is : List ScopeId}

/-- The frames along an ascent: those of calls, then that of the program. -/
theorem Scopes.Ascent.frames (h : scopes.Rooted) (hi : i < scopes.size)
    (his : scopes.Ascent i is) :
    ∃ calls : List Frame, is.map scopes.label? = (calls ++ [Frame.program]).map some ∧
      ∀ call ∈ calls, call.entry ≠ none := by
  induction his with
  | root =>
    refine ⟨[], ?_, List.forall_mem_nil _⟩
    rw [List.map_singleton, h.root]
    rfl
  | @up i p is hparent _ ih =>
    have hlt := h.parent_lt hi hparent
    obtain ⟨calls, hlabels, hentries⟩ := ih (Nat.lt_trans hlt hi)
    have hne : i ≠ Machine.root := by
      intro hroot
      rw [hroot, h.outermost] at hparent
      cases hparent
    obtain ⟨name, entry, hlabel⟩ := h.entered i hi hne
    refine ⟨⟨name, some entry⟩ :: calls, ?_, ?_⟩
    · rw [List.map_cons, hlabel, hlabels]
      rfl
    · exact List.forall_mem_cons.mpr ⟨nofun, hentries⟩

end traced

/-! ### The graph -/

/-- The fault that a program ended with, if it did. -/
def Outcome.fault? : Outcome Error Value → Option Fault
  | .value _ => none
  | .error (.lexical _) => none
  | .error (.structural _) => none
  | .error (.fault fault) => some fault
  | .exhausted => none

theorem Outcome.exists_fault {reply : Outcome Error Value × Machine} {test : Fault → Bool}
    (h : reply.1.fault?.any test = true) :
    ∃ fault, reply = (.error (.fault fault), reply.2) ∧ test fault = true := by
  obtain ⟨_ | (_ | _ | fault) | _, m⟩ := reply
  · cases h
  · cases h
  · cases h
  · exact ⟨fault, rfl, h⟩
  · cases h

end LineScript
