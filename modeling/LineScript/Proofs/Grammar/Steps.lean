import LineScript.Proofs.Grammar.Progress

/-!
# Readings step by step

What a rule gives back says where the cursor ends, and not where it has been. Here a rule is spelled
out as single moves, so that one can speak of every cursor in between.

  * `Walk α` is a rule as a piece of syntax: look, move past one token, fail, try and go back, one
    after the other. `Walk.run` is the rule that it spells out.
  * `Walk.Passes w c d`: while `w` runs from `c`, the cursor stands at `d`.
  * `Walk.Rewinds w c start failed back`: on the way an attempt that began at `start` fails at
    `failed`, and the reading goes on at `back`.
  * `Rule.IsWalk`: a walk spells out the rule.

**Key idea.** Only one move goes forward, and it never leaves the tokens; only one goes back, and it
goes back to where its attempt began. So it does not matter how a rule is spelled out: the cursor is
within the tokens at every step of every walk (`Walk.Passes.follows`).
-/

namespace LineScript

/-! ### Cursors within their tokens -/

namespace Cursor

/-- The cursor stands on a token, or at the beginning if there are none. -/
def Within (c : Cursor) : Prop :=
  c.index < c.tokens.size ∨ c.tokens.size = 0 ∧ c.index = 0

/-- The same tokens, read at least as far, and within them. -/
structure Follows (c d : Cursor) : Prop where
  /-- The tokens are the same. -/
  tokens : d.tokens = c.tokens
  /-- The reading has not gone back. -/
  index_le : c.index ≤ d.index
  /-- The cursor is within the tokens. -/
  within : d.Within

variable {c d e : Cursor}

theorem Within.refl (h : c.Within) : c.Follows c :=
  ⟨rfl, Nat.le_refl _, h⟩

theorem Follows.trans (h : c.Follows d) (h' : d.Follows e) : c.Follows e :=
  ⟨h'.tokens.trans h.tokens, Nat.le_trans h.index_le h'.index_le, h'.within⟩

/-- Whether a cursor is within its tokens depends on the tokens and the index only. -/
theorem Within.follows_same (h : c.Within) (htokens : d.tokens = c.tokens)
    (hindex : d.index = c.index) : c.Follows d := by
  refine ⟨htokens, Nat.le_of_eq hindex.symm, ?_⟩
  unfold Within
  rw [htokens, hindex]
  exact h

theorem Within.follows_advance (h : c.Within) : c.Follows c.advance := by
  unfold advance
  split
  · next hlt => exact ⟨rfl, Nat.le_succ _, .inl hlt⟩
  · exact h.refl

/-- A rewind ends exactly where the attempt began. -/
theorem Follows.rewind_same (h : c.Follows d) (error : SyntaxError) :
    (d.rewind c.index error).tokens = c.tokens ∧ (d.rewind c.index error).index = c.index := by
  have hle := h.index_le
  by_cases hmoved : 0 < d.index - c.index
  · simp only [rewind, hmoved, if_true, reverse, Rule.recordSetback_same]
    exact ⟨h.tokens, by omega⟩
  · simp only [rewind, hmoved, if_false]
    exact ⟨h.tokens, by omega⟩

end Cursor

/-! ### Walks -/

/-- A rule, spelled out in single moves of the cursor. -/
inductive Walk : Type → Type 1
  /-- Ends with a value. -/
  | done {α : Type} (a : α) : Walk α
  /-- Looks at the cursor. -/
  | look {α : Type} (f : Cursor → α) : Walk α
  /-- Moves past one token. -/
  | advance : Walk Located
  /-- Fails. -/
  | fail {α : Type} (error : Cursor → SyntaxError) : Walk α
  /-- Fails with the error that is recorded for this place, if there is one. -/
  | failOr {α : Type} (error : Cursor → SyntaxError) : Walk α
  /-- Reaches a bound on depth or length. -/
  | stop {α : Type} : Walk α
  /-- Adds an entry to the log. -/
  | record (event : Event) : Walk Unit
  /-- One walk after another. -/
  | andThen {α β : Type} (first : Walk α) (next : α → Walk β) : Walk β
  /-- Goes back if the walk fails. -/
  | attempt {α : Type} (walk : Walk α) : Walk (Option α)
  /-- Words an error anew if the walk fails at once. -/
  | expecting {α : Type} (expected : String) (walk : Walk α) : Walk α

namespace Walk

variable {α β : Type}

/-- The rule that a walk spells out. -/
def run : {α : Type} → Walk α → Rule α
  | _, done a => pure a
  | _, look f => Run.look f
  | _, advance => Rule.advance
  | _, fail error => fun c => (.error (error c), c)
  | _, failOr error => Rule.failOr error
  | _, stop => Run.exhausted
  | _, record event => Grammar.record event
  | _, andThen first next => first.run >>= fun a => (next a).run
  | _, attempt walk => Rule.attempt walk.run
  | _, expecting expected walk => Rule.expecting expected walk.run

/-- While the walk runs from `c`, the cursor stands at `d`. -/
inductive Passes : {α : Type} → Walk α → Cursor → Cursor → Prop
  /-- Before the first move. -/
  | start {α : Type} {w : Walk α} {c : Cursor} : Passes w c c
  /-- After the last move. -/
  | finish {α : Type} {w : Walk α} {c : Cursor} : Passes w c (w.run c).2
  /-- In the first of two walks. -/
  | first {α β : Type} {w : Walk α} {next : α → Walk β} {c d : Cursor} (h : Passes w c d) :
    Passes (andThen w next) c d
  /-- In the second of two walks. -/
  | next {α β : Type} {w : Walk α} {next : α → Walk β} {a : α} {c d e : Cursor}
    (hfirst : w.run c = (.value a, d)) (h : Passes (next a) d e) : Passes (andThen w next) c e
  /-- During an attempt. -/
  | attempt {α : Type} {w : Walk α} {c d : Cursor} (h : Passes w c d) : Passes (attempt w) c d
  /-- In a walk whose error may be worded anew. -/
  | expecting {α : Type} {w : Walk α} {expected : String} {c d : Cursor} (h : Passes w c d) :
    Passes (expecting expected w) c d

/-- While the walk runs from `c`, an attempt that began at `start` fails at `failed` and is given up
for `back`. -/
inductive Rewinds : {α : Type} → Walk α → Cursor → Cursor → Cursor → Cursor → Prop
  /-- The attempt itself. -/
  | here {α : Type} {w : Walk α} {c d : Cursor} {e : SyntaxError} (h : w.run c = (.error e, d)) :
    Rewinds (attempt w) c c d (d.rewind c.index e)
  /-- In the first of two walks. -/
  | first {α β : Type} {w : Walk α} {next : α → Walk β} {c start failed back : Cursor}
    (h : Rewinds w c start failed back) : Rewinds (andThen w next) c start failed back
  /-- In the second of two walks. -/
  | next {α β : Type} {w : Walk α} {next : α → Walk β} {a : α} {c d start failed back : Cursor}
    (hfirst : w.run c = (.value a, d)) (h : Rewinds (next a) d start failed back) :
    Rewinds (andThen w next) c start failed back
  /-- During an attempt around it. -/
  | attempt {α : Type} {w : Walk α} {c start failed back : Cursor}
    (h : Rewinds w c start failed back) : Rewinds (attempt w) c start failed back
  /-- In a walk whose error may be worded anew. -/
  | expecting {α : Type} {w : Walk α} {expected : String} {c start failed back : Cursor}
    (h : Rewinds w c start failed back) : Rewinds (expecting expected w) c start failed back

/-- **One step after another.** A walk ends within the tokens and not before the place where it
began. -/
theorem follows_run (w : Walk α) {c : Cursor} (hc : c.Within) : c.Follows (w.run c).2 := by
  induction w generalizing c with
  | done | look | fail | stop => exact hc.refl
  | advance => exact hc.follows_advance
  | failOr error =>
    have hsame := Rule.setbackOr_snd c (error c)
    exact hc.follows_same hsame.1 hsame.2
  | record => exact hc.follows_same rfl rfl
  | andThen w next ih ihnext =>
    refine Run.bind_snd (ih hc) fun a => ?_
    exact (ih hc).trans (ihnext a (ih hc).within)
  | attempt w ih =>
    have hwalk := ih hc
    rw [run, Rule.attempt]
    rcases hr : w.run c with ⟨a | e | _, d⟩ <;> rw [hr] at hwalk
    · exact hwalk
    · exact hc.follows_same (hwalk.rewind_same e).1 (hwalk.rewind_same e).2
    · exact hwalk
  | expecting expected w ih =>
    have hwalk := ih hc
    rw [run, Rule.expecting]
    rcases hr : w.run c with ⟨a | e | _, d⟩ <;> rw [hr] at hwalk <;> exact hwalk

theorem follows_of_run {w : Walk α} {c d : Cursor} {reply : Outcome SyntaxError α} (hc : c.Within)
    (h : w.run c = (reply, d)) : c.Follows d := by
  have hrun := w.follows_run hc
  rw [h] at hrun
  exact hrun

/-- Every cursor on the way is within the tokens. -/
theorem Passes.follows {w : Walk α} {c d : Cursor} (h : w.Passes c d) (hc : c.Within) :
    c.Follows d := by
  induction h with
  | start => exact hc.refl
  | finish => exact follows_run _ hc
  | first _ ih => exact ih hc
  | next hfirst _ ih =>
    have hstep := follows_of_run hc hfirst
    exact hstep.trans (ih hstep.within)
  | attempt _ ih => exact ih hc
  | expecting _ ih => exact ih hc

/-- Every attempt on the way that is given up is given up for the place where it began. -/
theorem Rewinds.back_eq {w : Walk α} {c start failed back : Cursor}
    (h : w.Rewinds c start failed back) (hc : c.Within) :
    back.index = start.index ∧ start.index ≤ failed.index := by
  induction h with
  | here h =>
    have hfailed := follows_of_run hc h
    exact ⟨(hfailed.rewind_same _).2, hfailed.index_le⟩
  | first _ ih => exact ih hc
  | next hfirst _ ih => exact ih (follows_of_run hc hfirst).within
  | attempt _ ih => exact ih hc
  | expecting _ ih => exact ih hc

/-- Separators are passed one by one. -/
def skipNewlinesUpTo : Nat → Walk Nat
  | 0 => done 0
  | limit + 1 => andThen (look Cursor.peek) fun token =>
    if token = .newline then
      andThen advance fun _ => andThen (skipNewlinesUpTo limit) fun count => done (count + 1)
    else done 0

theorem run_skipNewlinesUpTo (limit : Nat) (c : Cursor) :
    (skipNewlinesUpTo limit).run c =
      (.value (c.skipNewlinesUpTo limit).1, (c.skipNewlinesUpTo limit).2) := by
  induction limit generalizing c with
  | zero => rfl
  | succ limit ih =>
    rw [skipNewlinesUpTo, Cursor.skipNewlinesUpTo]
    by_cases hnewline : c.peek = .newline
    · simp only [run, Run.bind_apply, Run.look, hnewline, if_true, Rule.advance, ih,
        Run.pure_apply]
    · simp only [run, Run.bind_apply, Run.look, hnewline, if_false, Run.pure_apply]

end Walk

/-! ### Rules that are walks -/

namespace Rule

variable {α β : Type}

/-- A walk spells out the rule. -/
def IsWalk (rule : Rule α) : Prop :=
  ∃ w : Walk α, w.run = rule

theorem IsWalk.follows {rule : Rule α} (h : IsWalk rule) {c d : Cursor}
    {reply : Outcome SyntaxError α} (hc : c.Within) (hrun : rule c = (reply, d)) :
    c.Follows d := by
  obtain ⟨w, rfl⟩ := h
  exact Walk.follows_of_run hc hrun

theorem IsWalk.bind {rule : Rule α} {next : α → Rule β} (h : IsWalk rule)
    (hnext : ∀ a, IsWalk (next a)) : IsWalk (rule >>= next) := by
  obtain ⟨w, rfl⟩ := h
  obtain ⟨after, hafter⟩ := Classical.axiomOfChoice hnext
  refine ⟨.andThen w after, ?_⟩
  simp only [Walk.run, hafter]

theorem IsWalk.attempt {rule : Rule α} (h : IsWalk rule) : IsWalk (attempt rule) := by
  obtain ⟨w, rfl⟩ := h
  exact ⟨.attempt w, rfl⟩

theorem IsWalk.expecting {rule : Rule α} (expected : String) (h : IsWalk rule) :
    IsWalk (expecting expected rule) := by
  obtain ⟨w, rfl⟩ := h
  exact ⟨.expecting expected w, rfl⟩

theorem isWalk_pure (a : α) : IsWalk (pure a : Rule α) :=
  ⟨.done a, rfl⟩

theorem isWalk_exhausted : IsWalk (Run.exhausted : Rule α) :=
  ⟨.stop, rfl⟩

theorem isWalk_look (f : Cursor → α) : IsWalk (Run.look f) :=
  ⟨.look f, rfl⟩

theorem isWalk_sees (token : Token) : IsWalk (sees token) :=
  isWalk_look _

theorem isWalk_advance : IsWalk advance :=
  ⟨.advance, rfl⟩

theorem isWalk_unexpected (expected : String) : IsWalk (unexpected expected : Rule α) :=
  ⟨.fail (·.unexpected expected), rfl⟩

theorem isWalk_failOr (error : Cursor → SyntaxError) : IsWalk (failOr error : Rule α) :=
  ⟨.failOr error, rfl⟩

theorem isWalk_record (event : Event) : IsWalk (Grammar.record event) :=
  ⟨.record event, rfl⟩

theorem isWalk_skipNewlines : IsWalk skipNewlines := by
  -- there are at most as many separators as tokens
  refine ⟨.andThen (.look fun c => c.tokens.size) Walk.skipNewlinesUpTo, ?_⟩
  funext c
  exact Walk.run_skipNewlinesUpTo c.tokens.size c

/-- What a rule does may depend on what it has seen. -/
theorem IsWalk.ite {p : Prop} [Decidable p] {rule rule' : Rule α} (h : IsWalk rule)
    (h' : IsWalk rule') : IsWalk (if p then rule else rule') := by
  split
  · exact h
  · exact h'

theorem isWalk_expect (token : Token) (expected : String) : IsWalk (expect token expected) :=
  (isWalk_sees token).bind fun _ =>
    (isWalk_advance.bind fun _ => isWalk_pure _).ite (isWalk_unexpected _)

theorem isWalk_expectIdentifier : IsWalk expectIdentifier := by
  refine (isWalk_look _).bind fun token => ?_
  split
  · exact isWalk_advance.bind fun _ => isWalk_pure _
  · exact isWalk_unexpected _

theorem isWalk_items {item : Rule α} (closing : Symbol) (hitem : IsWalk item) (n : Nat) :
    IsWalk (items item closing n) := by
  induction n with
  | zero => exact isWalk_exhausted
  | succ n ih =>
    have hmore : IsWalk (items item closing n) := ih
    refine hitem.bind fun first => (isWalk_look _).bind fun token => .ite ?_ (.ite ?_ ?_)
    · exact isWalk_advance.bind fun _ => hmore.bind fun _ => isWalk_pure _
    · exact isWalk_advance.bind fun _ => isWalk_pure _
    · exact isWalk_unexpected _

theorem isWalk_separated {item : Rule α} (closing : Symbol) (hitem : IsWalk item) (n : Nat) :
    IsWalk (separated item closing n) :=
  (isWalk_sees _).bind fun _ =>
    (isWalk_advance.bind fun _ => isWalk_pure _).ite (isWalk_items closing hitem n)

end Rule

end LineScript
