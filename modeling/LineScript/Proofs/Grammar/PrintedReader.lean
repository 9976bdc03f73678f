import LineScript.Expr.Printer
import LineScript.Proofs.Evaluation.Simulation
import LineScript.Proofs.Lexer.Writing

/-!
# A reader of printed trees

A printed tree can be read from left to right with nothing but a look at what comes next. This file
holds such a reader. `LineScript.Proofs.Grammar.Unambiguous` shows that it gives the tree back.

  * `Scan`: a computation whose state is the rest of a text. `Scan.accepts`, `Scan.exactly` and
    `Scan.stretch` take a fixed text or all characters of a class.
  * `Scan.quoted`: the rest of a string, after its opening quote.
  * `Opening`: how an expression that is no number, name or call begins, and `Row`: how several
    expressions stand side by side.
  * `Scan.expr`: an expression. A call has no opening of its own, so what is read first is followed
    by as many rows of arguments as come after it.

The trees that are read have no places; each node is at the start.
-/

namespace LineScript

open Lexer

/-! ### Reading from a text -/

/-- A computation that reads from a text; its state is what is left of the text. -/
abbrev Scan := Run (List Char) Unit

namespace Scan

/-- Takes the text if it comes next, and says whether it did. -/
def accepts (text : String) : Scan Bool := fun cs =>
  if text.toList.isPrefixOf cs then (.value true, cs.drop text.toList.length)
  else (.value false, cs)

/-- Takes the text, which has to come next. -/
def exactly (text : String) : Scan Unit := do
  if ← accepts text then pure () else Run.fail ()

/-- Takes the characters of a class as long as they come. -/
def stretch (q : Char → Bool) : Scan String := fun cs =>
  (.value (String.ofList (cs.takeWhile q)), cs.dropWhile q)

/-- Takes one character. -/
def char : Scan Char
  | c :: cs => (.value c, cs)
  | [] => (.error (), [])

/-! ### Words and strings -/

/-- Takes a name, which may be empty. -/
def name : Scan String := stretch isNameRest

/-- The number or the name that is written so. Numbers begin with a digit, and names do not. -/
def ofWord (text : String) : Scan Expr :=
  if text.toList.head?.any Char.isDigit then
    match Number.read? text with
    | some x => pure (.number x .start)
    | none => Run.fail ()
  else pure (.name text .start)

/-- A character of a number or a name. -/
def inWord (c : Char) : Bool :=
  isNameRest c || c == '.'

/-- A number or a name. -/
def word : Scan Expr := do
  let text ← stretch inWord
  ofWord text

/-- Value of a hexadecimal digit. -/
def hexDigit (c : Char) : Nat :=
  if c.isDigit then c.toNat - '0'.toNat else c.toNat - 'a'.toNat + 10

/-- Value of hexadecimal digits. -/
def ofHex (ds : List Char) : Nat :=
  ds.foldl (fun n d => 16 * n + hexDigit d) 0

/-- The character that is written after a backslash. -/
def escaped : Scan Char := do
  let c ← char
  if c = 'n' then pure '\n'
  else if c = 'r' then pure '\r'
  else if c = 't' then pure '\t'
  else if c = '0' then pure '\x00'
  else if c = 'u' then
    exactly "\x7b"
    let digits ← stretch (· != '\x7d')
    exactly "\x7d"
    pure (Char.ofNat (ofHex digits.toList))
  else pure c

/-- The character of a string that is written beginning with `c`. -/
def begun (c : Char) : Scan Char :=
  if c = '\\' then escaped else pure c

/-- The rest of a string, after its opening quote. -/
def quoted : Nat → Scan (List Char)
  | 0 => Run.exhausted
  | n + 1 => do
    let c ← char
    if c = '"' then pure []
    else
      let first ← begun c
      let rest ← quoted n
      pure (first :: rest)

end Scan

/-! ### Openings, rows and operators -/

/-- How an expression that is no number, name or call begins. -/
inductive Opening
  /-- A string. -/
  | quote
  /-- A list. -/
  | bracket
  /-- A binding. -/
  | assign
  /-- A conditional. -/
  | ifThen
  /-- A counted loop. -/
  | forTo
  /-- A conditional loop. -/
  | whileDo
  /-- A function. -/
  | function
  /-- An operator with its operands. -/
  | operation
  deriving DecidableEq

namespace Opening

/-- The text of an opening. -/
def text : Opening → String
  | quote => "\""
  | bracket => "["
  | assign => "(VAR "
  | ifThen => "(IF "
  | forTo => "(FOR "
  | whileDo => "(WHILE "
  | function => "(FUNCTION "
  | operation => "("

/-- All openings. That of an operation begins several others, so it comes last. -/
def all : List Opening :=
  [quote, bracket, assign, ifThen, forTo, whileDo, function, operation]

end Opening

/-- Where several expressions stand side by side. -/
inductive Row
  /-- The elements of a list. -/
  | list
  /-- The arguments of a call, or the parameters of a function. -/
  | arguments
  /-- The statements of a block. -/
  | block

/-- What stands between the expressions of a row. -/
def Row.separator : Row → String
  | list | arguments => ", "
  | block => "; "

/-- What stands after the last expression of a row. -/
def Row.closing : Row → String
  | list => "]"
  | arguments => ")"
  | block => "\x7d"

/-- All operators between two operands. -/
def BinaryOperator.all : List BinaryOperator :=
  [and, or, equal, notEqual, less, greater, lessEqual, greaterEqual, add, sub, mul, div, pow]

/-- The operator that is written in this way. -/
def BinaryOperator.ofSpelling? (text : String) : Option BinaryOperator :=
  all.find? (·.symbol.spelling == text)

/-- The name that an expression is. -/
def Expr.name? : Expr → Option String
  | name x _ => some x
  | _ => none

namespace Scan

/-- Takes the opening that comes next, if there is one. -/
def opening? : Scan (Option Opening) := fun cs =>
  match Opening.all.find? fun o => o.text.toList.isPrefixOf cs with
  | some o => (.value (some o), cs.drop o.text.toList.length)
  | none => (.value none, cs)

/-- Takes the operator that comes next, if it stands before one operand. -/
def unary? : Scan (Option UnaryOperator) := do
  if ← accepts "+" then pure (some .plus)
  else if ← accepts "-" then pure (some .negate)
  else if ← accepts "!" then pure (some .not)
  else pure none

/-! ### Expressions -/

mutual

/-- An expression, and the rows of arguments that it is called with. -/
def expr : Nat → Scan Expr
  | 0 => Run.exhausted
  | n + 1 => do
    let e ← first n
    calls n e
termination_by structural n => n

/-- The expression `e`, called with the rows of arguments that come next. -/
def calls : Nat → Expr → Scan Expr
  | 0, _ => Run.exhausted
  | n + 1, e => do
    if ← accepts "(" then
      let arguments ← row n .arguments
      calls n (.call e arguments .start)
    else pure e
termination_by structural n => n

/-- An expression that is no call. -/
def first : Nat → Scan Expr
  | 0 => Run.exhausted
  | n + 1 => do
    match ← opening? with
    | some o => opened n o
    | none => word
termination_by structural n => n

/-- The rest of an expression after its opening. -/
def opened : Nat → Opening → Scan Expr
  | 0, _ => Run.exhausted
  | n + 1, .quote => do
    let cs ← quoted n
    pure (.text (String.ofList cs) .start)
  | n + 1, .bracket => do
    let es ← row n .list
    pure (.list es .start)
  | n + 1, .assign => do
    let x ← name
    exactly " = "
    let value ← expr n
    exactly ")"
    pure (.assign x value .start)
  | n + 1, .ifThen => do
    let condition ← expr n
    exactly " THEN "
    let b ← body n
    let rest ← chain n
    exactly ")"
    pure (.ifThen condition b rest .start)
  | n + 1, .forTo => do
    let var ← name
    exactly " = "
    let start ← expr n
    exactly " TO "
    let stop ← expr n
    let by_ ← step n
    exactly " THEN "
    let b ← body n
    exactly ")"
    pure (.forTo var start stop by_ b .start)
  | n + 1, .whileDo => do
    let condition ← expr n
    exactly " THEN "
    let b ← body n
    exactly ")"
    pure (.whileDo condition b .start)
  | n + 1, .function => do
    let x ← name
    exactly "("
    let params ← row n .arguments
    exactly " => "
    let b ← body n
    exactly ")"
    -- a missing name is written as nothing, and no name is empty
    pure (.function (if x = "" then none else some x) (params.filterMap Expr.name?) b .start)
  | n + 1, .operation => do
    -- no operand begins with an operator, so one that comes next stands before its operand
    match ← unary? with
    | some op =>
      let operand ← expr n
      exactly ")"
      pure (.unary op operand .start)
    | none =>
      let left ← expr n
      exactly " "
      let spelling ← stretch (· != ' ')
      exactly " "
      let right ← expr n
      exactly ")"
      match BinaryOperator.ofSpelling? spelling with
      | some op => pure (.binary op left right .start)
      | none => Run.fail ()
termination_by structural n => n

/-- The expressions of a row, up to its closing. -/
def row : Nat → Row → Scan (List Expr)
  | 0, _ => Run.exhausted
  | n + 1, r => do
    if ← accepts r.closing then pure []
    else
      let e ← expr n
      let es ← further n r
      pure (e :: es)
termination_by structural n => n

/-- The expressions of a row after the first. -/
def further : Nat → Row → Scan (List Expr)
  | 0, _ => Run.exhausted
  | n + 1, r => do
    if ← accepts r.closing then pure []
    else
      exactly r.separator
      let e ← expr n
      let es ← further n r
      pure (e :: es)
termination_by structural n => n

/-- The step of a loop, which may be missing. -/
def step : Nat → Scan (Option Expr)
  | 0 => Run.exhausted
  | n + 1 => do
    if ← accepts " STEP " then
      let e ← expr n
      pure (some e)
    else pure none
termination_by structural n => n

/-- A body: a block in braces, or an expression. -/
def body : Nat → Scan Body
  | 0 => Run.exhausted
  | n + 1 => do
    if ← accepts "\x7b" then
      let es ← row n .block
      pure (.block (.list es .start))
    else
      let e ← expr n
      pure (.inline e)
termination_by structural n => n

/-- What follows a case of a conditional. -/
def chain : Nat → Scan Chain
  | 0 => Run.exhausted
  | n + 1 => do
    if ← accepts " ELIF " then
      let condition ← expr n
      exactly " THEN "
      let b ← body n
      let rest ← chain n
      pure (.elif condition b rest)
    else if ← accepts " ELSE " then
      let b ← body n
      pure (.otherwise b)
    else pure .done
termination_by structural n => n

end

end Scan

/-! ### Taking a text -/

section tends

variable {σ ε α : Type} {run : Nat → Run σ ε α} {s : σ}

/-- The first bound does not matter. -/
theorem Tends.succ {reply : Outcome ε α × σ} (h : Tends (fun n => run (n + 1)) s reply) :
    Tends run s reply := by
  obtain ⟨least, hleast⟩ := h
  refine ⟨least + 1, ?_⟩
  intro n hn
  obtain ⟨n, rfl⟩ : ∃ k, n = k + 1 := ⟨n - 1, by omega⟩
  exact hleast n (by omega)

/-- A computation has one reply. -/
theorem Tends.unique {reply reply' : Outcome ε α × σ} (h : Tends run s reply)
    (h' : Tends run s reply') : reply = reply' := by
  obtain ⟨least, hleast⟩ := h
  obtain ⟨least', hleast'⟩ := h'
  rw [← hleast (max least least') (by omega), hleast' (max least least') (by omega)]

end tends

section texts

variable {β : Type} {next : Nat → Unit → Scan β} {branch : Nat → Bool → Scan β} {text : String}
  {cs rest : List Char} {reply : Outcome Unit β × List Char}

theorem Scan.accepts_append (text : String) (rest : List Char) :
    accepts text (text.toList ++ rest) = (.value true, rest) := by
  have hprefix : text.toList.isPrefixOf (text.toList ++ rest) = true :=
    List.isPrefixOf_iff_prefix.mpr (List.prefix_append _ _)
  unfold accepts
  rw [if_pos hprefix, List.drop_left]

/-- The text comes next and is taken. -/
theorem Tends.accepted (h : Tends (fun n => branch n true) rest reply) :
    Tends (fun n => Scan.accepts text >>= branch n) (text.toList ++ rest) reply :=
  Tends.bind (.of_eq fun _ => Scan.accepts_append text rest) h

/-- Another text comes next. -/
theorem Tends.declined (hother : text.toList.isPrefixOf cs = false)
    (h : Tends (fun n => branch n false) cs reply) :
    Tends (fun n => Scan.accepts text >>= branch n) cs reply := by
  refine Tends.bind (.of_eq fun _ => ?_) h
  unfold Scan.accepts
  rw [hother, if_neg Bool.false_ne_true]

theorem Tends.exactly (h : Tends (fun n => next n ()) rest reply) :
    Tends (fun n => Scan.exactly text >>= next n) (text.toList ++ rest) reply := by
  refine Tends.bind (Tends.of_eq fun _ => ?_) h
  unfold Scan.exactly
  rw [Run.bind_apply, Scan.accepts_append]
  rfl

/-- A stretch of a class ends where a character of another class follows. -/
theorem Scan.stretch_append {q : Char → Bool} (hcs : ∀ c ∈ cs, q c = true)
    (hrest : ∀ c ∈ rest.head?, q c = false) :
    stretch q (cs ++ rest) = (.value (String.ofList cs), rest) := by
  have hnone : rest.takeWhile q = [] ∧ rest.dropWhile q = rest := by
    cases rest with
    | nil => exact ⟨rfl, rfl⟩
    | cons c rest =>
      have hc : q c = false := hrest c rfl
      simp [hc]
  unfold stretch
  rw [List.takeWhile_append_of_pos hcs, List.dropWhile_append_of_pos hcs, hnone.1, hnone.2,
    List.append_nil]

end texts

/-! ### Strings -/

section strings

theorem Scan.ofHex_append (ds : List Char) (d : Char) :
    ofHex (ds ++ [d]) = 16 * ofHex ds + hexDigit d := by
  simp [ofHex]

theorem Scan.hexDigit_digitChar : ∀ d < 16, hexDigit (Nat.digitChar d) = d := by
  decide

/-- Hexadecimal digits are read as the number that they were written for. -/
theorem Scan.ofHex_toDigits (n : Nat) : ofHex (Nat.toDigits 16 n) = n := by
  induction n using Nat.strongRecOn with
  | ind n ih =>
    by_cases hlt : n < 16
    · rw [Nat.toDigits_of_lt_base hlt]
      show 16 * 0 + hexDigit (Nat.digitChar n) = n
      rw [hexDigit_digitChar n hlt]
      omega
    · rw [Nat.toDigits_of_base_le (by decide) (by omega), ofHex_append, ih (n / 16) (by omega),
        hexDigit_digitChar (n % 16) (by omega)]
      omega

theorem Scan.hex_ne_brace (n : Nat) : ∀ c ∈ Nat.toDigits 16 n, (c != '\x7d') = true := by
  have hdigit : ∀ d < 16, (Nat.digitChar d != '\x7d') = true := by decide
  induction n using Nat.strongRecOn with
  | ind n ih =>
    by_cases hlt : n < 16
    · rw [Nat.toDigits_of_lt_base hlt]
      exact List.forall_mem_singleton.mpr (hdigit n hlt)
    · rw [Nat.toDigits_of_base_le (by decide) (by omega)]
      refine List.forall_mem_append.mpr ⟨ih (n / 16) (by omega), ?_⟩
      exact List.forall_mem_singleton.mpr (hdigit (n % 16) (by omega))

/-- The code point of a character, after a backslash. -/
theorem Scan.escaped_codePoint (c : Char) (cs : List Char) :
    escaped ('u' :: '\x7b' :: (Nat.toDigits 16 c.toNat ++ '\x7d' :: cs)) = (.value c, cs) := by
  have hdigits : stretch (· != '\x7d') (Nat.toDigits 16 c.toNat ++ '\x7d' :: cs) =
      (.value (String.ofList (Nat.toDigits 16 c.toNat)), '\x7d' :: cs) :=
    stretch_append (hex_ne_brace c.toNat) (by simp)
  show (stretch (· != '\x7d') >>= fun digits => exactly "\x7d" >>= fun _ =>
    pure (Char.ofNat (ofHex digits.toList))) (Nat.toDigits 16 c.toNat ++ '\x7d' :: cs) = _
  rw [Run.bind_apply, hdigits]
  show (Outcome.value (Char.ofNat (ofHex (String.ofList (Nat.toDigits 16 c.toNat)).toList)), cs) = _
  rw [String.toList_ofList, ofHex_toDigits, Char.ofNat_toNat]

/-- A character that is written in quotes is read back, whatever follows. -/
theorem Scan.quoted_escape (c : Char) (n : Nat) (cs : List Char) :
    quoted (n + 1) (Text.escape c ++ cs) = (quoted n >>= fun rest => pure (c :: rest)) cs := by
  unfold Text.escape
  split
  · rfl
  · rfl
  · rfl
  · rfl
  · rfl
  · rfl
  · next hquote hbackslash _ _ _ _ =>
    split
    · -- the code point
      simp only [List.cons_append, List.nil_append, List.append_assoc]
      show (escaped >>= fun c => quoted n >>= fun rest => pure (c :: rest)) _ = _
      rw [Run.bind_apply, escaped_codePoint]
    · -- the character itself
      show (if c = '"' then pure [] else begun c >>= fun first =>
        quoted n >>= fun rest => pure (first :: rest)) cs = _
      rw [if_neg hquote, begun, if_neg hbackslash]
      rfl

theorem tends_quoted (cs rest : List Char) :
    Tends Scan.quoted (cs.flatMap Text.escape ++ '"' :: rest) (.value cs, rest) := by
  induction cs with
  | nil => exact .succ (.of_eq fun _ => rfl)
  | cons c cs ih =>
    refine .succ ?_
    simp only [List.flatMap_cons, List.append_assoc]
    have hrest : Tends (fun n => Scan.quoted n >>= fun rest => pure (c :: rest))
        (cs.flatMap Text.escape ++ '"' :: rest) (.value (c :: cs), rest) :=
      ih.bind (.of_eq fun _ => rfl)
    obtain ⟨least, hleast⟩ := hrest
    refine ⟨least, ?_⟩
    intro n hn
    show Scan.quoted (n + 1) _ = _
    rw [Scan.quoted_escape]
    exact hleast n hn

end strings

end LineScript
