import Mathlib.Data.List.TakeWhile
import LineScript.Proofs.Lexer.Shapes

/-!
# The lexer takes the longest match

What the words of the language are, said without a scanner: which texts are lexemes, what each of
them stands for, and that at every place the longest one is taken.

  * `Lexicon.Reading text reading`: the characters `text` are a lexeme, and it stands for a token,
    or it is a run of operator characters that is no operator.
  * `Lexicon.Longest text rest`: of all lexemes with which `text ++ rest` begins, `text` is the
    longest.
  * `Lexicon.Quoted value text`: between quotes, `text` stands for the string `value`.
  * `Lexicon.Scans p cs result`: the characters `cs`, which start at `p`, split into the tokens, or
    fail with the error, of `result`.

**Key idea.** A lexeme that is scanned on its own is read to its end (`lexeme_of_reading`), so there
is only one thing it can stand for. And what the scanner reads is longer than every other lexeme at
the same place (`lexeme_cases`), since the first character decides which class of characters
goes on.
-/

namespace LineScript

namespace Lexicon

/-! ### Characters -/

/-- The characters that separate lexemes. -/
def Blank (c : Char) : Prop :=
  c ∈ [' ', '\t', '\r', '\x0c']

/-- `0` to `9`. -/
def Digit (c : Char) : Prop :=
  '0' ≤ c ∧ c ≤ '9'

/-- The letters of ASCII. -/
def Letter (c : Char) : Prop :=
  ('a' ≤ c ∧ c ≤ 'z') ∨ ('A' ≤ c ∧ c ≤ 'Z')

/-- The characters with which a name can start. -/
def NameStart (c : Char) : Prop :=
  Letter c ∨ c = 'ñ' ∨ c = 'Ñ'

/-- The accented letters of Latin-1, by their numbers. -/
def Accented (c : Char) : Prop :=
  (0xC0 ≤ c.toNat ∧ c.toNat ≤ 0xD6) ∨ (0xD8 ≤ c.toNat ∧ c.toNat ≤ 0xF6) ∨
    (0xF8 ≤ c.toNat ∧ c.toNat ≤ 0xFF)

/-- The characters with which a name can go on. -/
def NameRest (c : Char) : Prop :=
  Letter c ∨ Digit c ∨ c = '_' ∨ Accented c

/-- The characters that join into runs. -/
def Joining (c : Char) : Prop :=
  c ∈ ['=', '!', '<', '>', '&', '|']

/-- The symbols of one character that never join with a neighbour. -/
def marks : List Symbol :=
  [.plus, .minus, .star, .slash, .caret, .lparen, .rparen, .lbracket, .rbracket, .comma]

/-- The symbols that are runs. -/
def operators : List Symbol :=
  [.equals, .equalEqual, .bangEqual, .less, .greater, .lessEqual, .greaterEqual, .andAnd, .orOr,
    .bang, .arrow]

/-! ### Lexemes -/

/-- A character with which a name can start, and then any with which it can go on. -/
def NameShape : List Char → Prop
  | [] => False
  | c :: cs => NameStart c ∧ ∀ d ∈ cs, NameRest d

/-- The texts that are lexemes, strings apart, each with what it stands for. -/
inductive Reading : List Char → Except Flaw Token → Prop
  /-- Digits. -/
  | integer {digits : List Char} (hsome : digits ≠ []) (hdigits : ∀ c ∈ digits, Digit c) :
    Reading digits (.ok (.int (String.ofList digits)))
  /-- Digits, a point, and possibly more digits. -/
  | float {digits fraction : List Char} (hsome : digits ≠ []) (hdigits : ∀ c ∈ digits, Digit c)
    (hfraction : ∀ c ∈ fraction, Digit c) :
    Reading (digits ++ '.' :: fraction) (.ok (.float (String.ofList (digits ++ '.' :: fraction))))
  /-- A name that is a keyword. -/
  | keyword {text : List Char} {word : Keyword} (hshape : NameShape text)
    (hword : word.spelling = String.ofList text) : Reading text (.ok (.keyword word))
  /-- A name that is no keyword. -/
  | identifier {text : List Char} (hshape : NameShape text)
    (hfree : ∀ word : Keyword, word.spelling ≠ String.ofList text) :
    Reading text (.ok (.identifier (String.ofList text)))
  /-- A symbol of one character. -/
  | mark {mark : Symbol} (hmark : mark ∈ marks) :
    Reading mark.spelling.toList (.ok (.symbol mark))
  /-- A line feed or U+204B. -/
  | newline {c : Char} (hc : c = '\n' ∨ c = '\u204b') : Reading [c] (.ok .newline)
  /-- A run that is an operator. -/
  | operator {mark : Symbol} (hmark : mark ∈ operators) :
    Reading mark.spelling.toList (.ok (.symbol mark))
  /-- A run that is no operator. -/
  | malformed {run : List Char} (hsome : run ≠ []) (hrun : ∀ c ∈ run, Joining c)
    (hnone : ∀ mark ∈ operators, mark.spelling.toList ≠ run) :
    Reading run (.error (.malformedOperator (String.ofList run)))

/-- The text is a lexeme, and none with which `text ++ rest` begins is longer. -/
structure Longest (text rest : List Char) : Prop where
  /-- The text is a lexeme. -/
  lexeme : ∃ reading, Reading text reading
  /-- Any other lexeme at this place is at most as long. -/
  longest : ∀ text' rest' reading, Reading text' reading → text' ++ rest' = text ++ rest →
    text'.length ≤ text.length

/-- The value of what stands between quotes: a backslash makes the next character stand for itself,
and without one neither a quote nor a backslash is found there. -/
inductive Quoted : List Char → List Char → Prop
  /-- Nothing between the quotes. -/
  | nil : Quoted [] []
  /-- A character that stands for itself. -/
  | plain {c : Char} {value text : List Char} (hquote : c ≠ '"') (hbackslash : c ≠ '\\')
    (hrest : Quoted value text) : Quoted (c :: value) (c :: text)
  /-- A backslash and any character. -/
  | escaped {c : Char} {value text : List Char} (hrest : Quoted value text) :
    Quoted (c :: value) ('\\' :: c :: text)

/-- The tokens of the characters from the place `p` on, or the first thing that is no token. -/
inductive Scans : Position → List Char → Except LexError (List Located) → Prop
  /-- The end of input. -/
  | eof {p : Position} : Scans p [] (.ok [⟨.eof, p⟩])
  /-- A blank is dropped. -/
  | blank {p : Position} {c : Char} {cs : List Char} {result : Except LexError (List Located)}
    (hblank : Blank c) (hrest : Scans (p.advance c) cs result) : Scans p (c :: cs) result
  /-- A string up to its closing quote. -/
  | string {p : Position} {value text rest : List Char} {result : Except LexError (List Located)}
    (hquoted : Quoted value text) (hrest : Scans (p.advanceAll ('"' :: (text ++ ['"']))) rest result) :
    Scans p ('"' :: (text ++ '"' :: rest)) (result.map (⟨.str (String.ofList value), p⟩ :: ·))
  /-- A string without a closing quote. -/
  | unclosed {p : Position} {cs : List Char}
    (hnone : ∀ value text rest, Quoted value text → text ++ '"' :: rest ≠ cs) :
    Scans p ('"' :: cs) (.error ⟨.malformedString, p⟩)
  /-- The longest lexeme. -/
  | lexeme {p : Position} {text rest : List Char} {token : Token}
    {result : Except LexError (List Located)} (hlongest : Longest text rest)
    (hreading : Reading text (.ok token)) (hrest : Scans (p.advanceAll text) rest result) :
    Scans p (text ++ rest) (result.map (⟨token, p⟩ :: ·))
  /-- The longest lexeme is a run that is no operator. -/
  | malformed {p : Position} {text rest : List Char} {flaw : Flaw} (hlongest : Longest text rest)
    (hreading : Reading text (.error flaw)) : Scans p (text ++ rest) (.error ⟨flaw, p⟩)
  /-- No lexeme starts with this character. -/
  | illegal {p : Position} {c : Char} {cs : List Char} (hblank : ¬ Blank c) (hquote : c ≠ '"')
    (hnone : ∀ text rest reading, Reading text reading → text ++ rest ≠ c :: cs) :
    Scans p (c :: cs) (.error ⟨.illegalCharacter c, p⟩)

/-! ### The classes of the scanner -/

theorem isBlank_iff {c : Char} : Lexer.isBlank c = true ↔ Blank c := by
  simp [Lexer.isBlank, Blank, or_assoc]

theorem isDigit_iff {c : Char} : c.isDigit = true ↔ Digit c := by
  simp [Char.isDigit, Digit, Char.le_def]

theorem isAlpha_iff {c : Char} : c.isAlpha = true ↔ Letter c := by
  have hletters : c.isAlpha = (decide ('A' ≤ c ∧ c ≤ 'Z') ||
    (decide ('a' ≤ c) && decide (c ≤ 'z'))) := rfl
  rw [hletters, Letter, or_comm]
  simp only [Bool.or_eq_true, Bool.and_eq_true, decide_eq_true_eq]

theorem isNameStart_iff {c : Char} : Lexer.isNameStart c = true ↔ NameStart c := by
  simp [Lexer.isNameStart, NameStart, isAlpha_iff, or_assoc]

theorem isNameRest_iff {c : Char} : Lexer.isNameRest c = true ↔ NameRest c := by
  simp only [Lexer.isNameRest, NameRest, Accented, Char.isAlphanum, Bool.or_eq_true, isAlpha_iff,
    isDigit_iff, Bool.and_eq_true, decide_eq_true_eq, beq_iff_eq, Char.le_def, or_assoc]
  rfl

theorem isOperatorChar_iff {c : Char} : Lexer.isOperatorChar c = true ↔ Joining c := by
  simp [Lexer.isOperatorChar, Joining, or_assoc]

theorem ofSpelling?_spelling (word : Keyword) : Keyword.ofSpelling? word.spelling = some word := by
  cases word <;> decide

theorem ofSpelling?_eq_some_iff {text : String} {word : Keyword} :
    Keyword.ofSpelling? text = some word ↔ word.spelling = text := by
  constructor
  · intro h
    simpa using List.find?_some h
  · rintro rfl
    exact ofSpelling?_spelling word

theorem ofSpelling?_eq_none_iff {text : String} :
    Keyword.ofSpelling? text = none ↔ ∀ word : Keyword, word.spelling ≠ text := by
  simp only [Option.eq_none_iff_forall_ne_some, ne_eq, ofSpelling?_eq_some_iff]

theorem ofRun?_eq_some_iff {run : List Char} {mark : Symbol} :
    Symbol.ofRun? run = some mark ↔ mark ∈ operators ∧ mark.spelling.toList = run := by
  constructor
  · intro h
    unfold Symbol.ofRun? at h
    split at h <;> cases h <;> decide
  · rintro ⟨hmark, rfl⟩
    revert mark
    decide

theorem ofChar?_eq_some_iff {c : Char} {mark : Symbol} :
    Symbol.ofChar? c = some mark ↔ mark ∈ marks ∧ mark.spelling.toList = [c] := by
  constructor
  · intro h
    unfold Symbol.ofChar? at h
    split at h <;> cases h <;> decide
  · rintro ⟨hmark, hc⟩
    have hall : ∀ mark ∈ marks, Symbol.ofChar? (mark.spelling.toList.headD ' ') = some mark := by
      decide
    have hthis := hall mark hmark
    rwa [hc] at hthis

/-- A name starts with no digit and no quote. -/
theorem NameStart.not_digit {c : Char} (h : NameStart c) : ¬ Digit c ∧ c ≠ '"' := by
  obtain h | rfl | rfl := h
  · simp only [Letter, Char.le_def, UInt32.le_iff_toNat_le] at h
    have ha : 'a'.val.toNat = 97 := rfl
    have hA : 'A'.val.toNat = 65 := rfl
    have h9 : '9'.val.toNat = 57 := rfl
    refine ⟨?_, ?_⟩
    · rintro ⟨-, hle⟩
      rw [Char.le_def, UInt32.le_iff_toNat_le] at hle
      omega
    · rintro rfl
      have hquote : '"'.val.toNat = 34 := rfl
      omega
  · exact ⟨by simp [Digit, Char.le_def], by decide⟩
  · exact ⟨by simp [Digit, Char.le_def], by decide⟩

/-! ### A lexeme on its own -/

section lexeme

open Lexer

variable {c : Char} {cs : List Char}

theorem lexeme_of_digit (hc : Digit c) : lexeme c cs = .ok (number c cs) := by
  rw [lexeme, if_pos (isDigit_iff.mpr hc)]

theorem lexeme_of_nameStart (hc : NameStart c) : lexeme c cs = .ok (name c cs) := by
  have hdigit : ¬ c.isDigit = true := fun h => hc.not_digit.1 (isDigit_iff.mp h)
  rw [lexeme, if_neg hdigit, if_neg hc.not_digit.2, if_pos (isNameStart_iff.mpr hc)]

/-- Neither a number nor a string nor a name starts with a character that joins into runs. -/
theorem Joining.apart (hc : Joining c) :
    ¬ c.isDigit = true ∧ ¬ c = '"' ∧ ¬ isNameStart c = true := by
  simp only [Joining, List.mem_cons, List.not_mem_nil, or_false] at hc
  obtain rfl | rfl | rfl | rfl | rfl | rfl := hc <;> decide

theorem lexeme_of_joining (hc : Joining c) : lexeme c cs = operator c cs := by
  obtain ⟨hdigit, hquote, hname⟩ := hc.apart
  rw [lexeme, if_neg hdigit, if_neg hquote, if_neg hname, if_pos (isOperatorChar_iff.mpr hc)]

/-- Every symbol is scanned from its spelling. -/
theorem lexeme_of_spelling {mark : Symbol} (h : c :: cs = mark.spelling.toList) :
    lexeme c cs = .ok (.symbol mark, cs.length) := by
  have hall : lexeme (mark.spelling.toList.headD ' ') mark.spelling.toList.tail =
      .ok (.symbol mark, mark.spelling.toList.tail.length) := by
    cases mark <;> rfl
  rwa [← h] at hall

theorem number_of_digits (hcs : ∀ d ∈ cs, Digit d) :
    number c cs = (.int (String.ofList (c :: cs)), cs.length) := by
  have htake : cs.takeWhile Char.isDigit = cs :=
    List.takeWhile_eq_self_iff.mpr fun d hd => isDigit_iff.mpr (hcs d hd)
  simp [number, htake]

theorem number_of_point (c : Char) {fraction : List Char} (hcs : ∀ d ∈ cs, Digit d)
    (hfraction : ∀ d ∈ fraction, Digit d) (rest : List Char) :
    number c (cs ++ '.' :: (fraction ++ rest)) =
      (.float (String.ofList (c :: cs ++ '.' :: (fraction ++ rest.takeWhile Char.isDigit))),
        cs.length + 1 + (fraction.length + (rest.takeWhile Char.isDigit).length)) := by
  have htake : (cs ++ '.' :: (fraction ++ rest)).takeWhile Char.isDigit = cs := by
    rw [List.takeWhile_append_of_pos fun d hd => isDigit_iff.mpr (hcs d hd)]
    simp
  have htake' : (fraction ++ rest).takeWhile Char.isDigit =
      fraction ++ rest.takeWhile Char.isDigit :=
    List.takeWhile_append_of_pos fun d hd => isDigit_iff.mpr (hfraction d hd)
  simp [number, htake, htake']

/-- A lexeme that is scanned on its own is read to its end. -/
theorem lexeme_of_reading {reading : Except Flaw Token} (h : Reading (c :: cs) reading) :
    lexeme c cs = reading.map fun token => (token, cs.length) := by
  generalize htext : c :: cs = text at h
  cases h with
  | integer hsome hdigits =>
    subst htext
    rw [lexeme_of_digit (hdigits c List.mem_cons_self),
      number_of_digits fun d hd => hdigits d (List.mem_cons_of_mem c hd)]
    rfl
  | @float digits fraction hsome hdigits hfraction =>
    cases digits with
    | nil => exact absurd rfl hsome
    | cons d ds =>
      obtain ⟨rfl, hcs⟩ := List.cons.inj htext
      have hds : ∀ e ∈ ds, Digit e := fun e he => hdigits e (List.mem_cons_of_mem _ he)
      have hnumber := number_of_point c hds hfraction []
      simp only [List.append_nil, List.takeWhile_nil, List.length_nil, Nat.add_zero] at hnumber
      have hlength : cs.length = ds.length + 1 + fraction.length := by
        rw [hcs, List.append_eq, List.length_append, List.length_cons]
        omega
      rw [lexeme_of_digit (hdigits c List.mem_cons_self), hlength, hcs, List.append_eq, hnumber]
      rfl
  | @keyword _ word hshape hword =>
    subst htext
    have htake : cs.takeWhile isNameRest = cs :=
      List.takeWhile_eq_self_iff.mpr fun d hd => isNameRest_iff.mpr (hshape.2 d hd)
    rw [lexeme_of_nameStart hshape.1, name]
    simp only [htake, ofSpelling?_eq_some_iff.mpr hword, Except.map]
  | identifier hshape hfree =>
    subst htext
    have htake : cs.takeWhile isNameRest = cs :=
      List.takeWhile_eq_self_iff.mpr fun d hd => isNameRest_iff.mpr (hshape.2 d hd)
    rw [lexeme_of_nameStart hshape.1, name]
    simp only [htake, ofSpelling?_eq_none_iff.mpr hfree, Except.map]
  | mark hmark => exact lexeme_of_spelling htext
  | newline hc =>
    obtain ⟨rfl, rfl⟩ := List.cons.inj htext
    obtain rfl | rfl := hc <;> rfl
  | operator hmark => exact lexeme_of_spelling htext
  | malformed hsome hrun hnone =>
    subst htext
    have htake : cs.takeWhile isOperatorChar = cs :=
      List.takeWhile_eq_self_iff.mpr fun d hd =>
        isOperatorChar_iff.mpr (hrun d (List.mem_cons_of_mem c hd))
    have hrun' : Symbol.ofRun? (c :: cs) = none := by
      rw [Option.eq_none_iff_forall_ne_some]
      intro mark hmark
      obtain ⟨hmem, hspelled⟩ := ofRun?_eq_some_iff.mp hmark
      exact hnone mark hmem hspelled
    rw [lexeme_of_joining (hrun c List.mem_cons_self), operator]
    simp only [htake, hrun', Except.map]

/-! ### No lexeme is longer -/

/-- Which characters a lexeme goes on with is decided by its first one. -/
theorem Reading.classes {reading : Except Flaw Token} (h : Reading (c :: cs) reading) :
    (Digit c ∧ ((∀ d ∈ cs, Digit d) ∨ ∃ ds fs, cs = ds ++ '.' :: fs ∧ (∀ d ∈ ds, Digit d) ∧
      ∀ d ∈ fs, Digit d)) ∨
    (NameStart c ∧ ∀ d ∈ cs, NameRest d) ∨ (Joining c ∧ ∀ d ∈ cs, Joining d) ∨ cs = [] := by
  generalize htext : c :: cs = text at h
  cases h with
  | integer hsome hdigits =>
    subst htext
    have hall := List.forall_mem_cons.mp hdigits
    exact .inl ⟨hall.1, .inl hall.2⟩
  | @float digits fraction hsome hdigits hfraction =>
    cases digits with
    | nil => exact absurd rfl hsome
    | cons d ds =>
      obtain ⟨rfl, rfl⟩ := List.cons.inj htext
      have hall := List.forall_mem_cons.mp hdigits
      exact .inl ⟨hall.1, .inr ⟨ds, fraction, rfl, hall.2, hfraction⟩⟩
  | keyword hshape =>
    subst htext
    exact .inr (.inl hshape)
  | identifier hshape =>
    subst htext
    exact .inr (.inl hshape)
  | @mark mark hmark =>
    have hall : ∀ mark ∈ marks, mark.spelling.toList.tail = [] := by decide
    have hnil := hall mark hmark
    rw [← htext] at hnil
    exact .inr (.inr (.inr hnil))
  | newline =>
    obtain ⟨-, rfl⟩ := List.cons.inj htext
    exact .inr (.inr (.inr rfl))
  | @operator mark hmark =>
    have hall : operators.all (fun mark => mark.spelling.toList.all isOperatorChar) = true := rfl
    have hrun : ∀ d ∈ mark.spelling.toList, Joining d := fun d hd =>
      isOperatorChar_iff.mp (List.all_eq_true.mp (List.all_eq_true.mp hall mark hmark) d hd)
    rw [← htext] at hrun
    exact .inr (.inr (.inl (List.forall_mem_cons.mp hrun)))
  | malformed hsome hrun =>
    subst htext
    exact .inr (.inr (.inl (List.forall_mem_cons.mp hrun)))

theorem take_takeWhile (q : Char → Bool) (cs : List Char) :
    cs.take (cs.takeWhile q).length = cs.takeWhile q :=
  (List.prefix_iff_eq_take.mp (List.takeWhile_prefix _)).symm

/-- A text of one class is at most as long as what is taken of this class. -/
theorem length_le_takeWhile {q : Char → Bool} {text rest : List Char} (h : ∀ d ∈ text, q d = true) :
    text.length ≤ ((text ++ rest).takeWhile q).length := by
  rw [List.takeWhile_append_of_pos h, List.length_append]
  exact Nat.le_add_right _ _

theorem length_le_number {text rest : List Char} (c : Char) (h : ∀ d ∈ text, Digit d) :
    text.length ≤ (number c (text ++ rest)).2 := by
  have hle : text.length ≤ ((text ++ rest).takeWhile Char.isDigit).length :=
    length_le_takeWhile fun d hd => isDigit_iff.mpr (h d hd)
  unfold number
  dsimp only
  split
  · dsimp only
    omega
  · exact hle

theorem number_le (c : Char) (cs : List Char) : (number c cs).2 ≤ cs.length := by
  have hwhole : (cs.takeWhile Char.isDigit).length ≤ cs.length :=
    (List.takeWhile_prefix _).length_le
  unfold number
  dsimp only
  split
  · next rest hdrop =>
    have hfraction : (rest.takeWhile Char.isDigit).length ≤ rest.length :=
      (List.takeWhile_prefix _).length_le
    have hrest := congrArg List.length hdrop
    rw [List.length_drop, List.length_cons] at hrest
    dsimp only
    omega
  · exact hwhole

theorem name_length (c : Char) (cs : List Char) :
    (name c cs).2 = (cs.takeWhile isNameRest).length := by
  unfold name
  dsimp only
  split <;> rfl

theorem Joining.not_others (h : Joining c) : ¬ Digit c ∧ ¬ NameStart c := by
  rw [← isDigit_iff, ← isNameStart_iff]
  exact ⟨h.apart.1, h.apart.2.2⟩

/-- The lexeme that a text begins with is not longer than what the scanner takes, if its characters
are of the class that the scanner takes. -/
theorem longest_of_le {k : Nat} {reading : Except Flaw Token}
    (hreading : Reading (c :: cs.take k) reading)
    (hle : ∀ text rest other, Reading (c :: text) other → cs = text ++ rest → text.length ≤ k) :
    Longest (c :: cs.take k) (cs.drop k) := by
  refine ⟨⟨reading, hreading⟩, ?_⟩
  intro text' rest' other hother happend
  rw [List.cons_append, List.take_append_drop] at happend
  cases text' with
  | nil => exact Nat.zero_le _
  | cons d text =>
    obtain ⟨rfl, htext⟩ := List.cons.inj happend
    have hk := hle text rest' other hother htext.symm
    have hlength : text.length ≤ cs.length := by
      rw [← htext, List.append_eq, List.length_append]
      omega
    simp only [List.length_cons, List.length_take]
    omega

/-- What is scanned as a number is the longest lexeme. -/
theorem longest_number (cs : List Char) (hc : Digit c) :
    Reading (c :: cs.take (number c cs).2) (.ok (number c cs).1) ∧
      Longest (c :: cs.take (number c cs).2) (cs.drop (number c cs).2) := by
  have hreading : Reading (c :: cs.take (number c cs).2) (.ok (number c cs).1) := by
    have hwhole : ∀ d ∈ c :: cs.takeWhile Char.isDigit, Digit d := by
      intro d hd
      obtain rfl | hd := List.mem_cons.mp hd
      · exact hc
      · exact isDigit_iff.mp (List.mem_takeWhile_imp hd)
    unfold number
    dsimp only
    split
    · next rest hdrop =>
      -- the point and the digits after it are the next part of the text
      have htake : cs.take ((cs.takeWhile Char.isDigit).length + 1 +
          (rest.takeWhile Char.isDigit).length) =
          cs.takeWhile Char.isDigit ++ '.' :: rest.takeWhile Char.isDigit := by
        rw [Nat.add_assoc, List.take_add, take_takeWhile, hdrop, Nat.add_comm 1,
          List.take_succ_cons, take_takeWhile]
      rw [htake, ← List.cons_append]
      exact .float (List.cons_ne_nil _ _) hwhole fun d hd =>
        isDigit_iff.mp (List.mem_takeWhile_imp hd)
    · rw [take_takeWhile]
      exact .integer (List.cons_ne_nil _ _) hwhole
  refine ⟨hreading, longest_of_le hreading ?_⟩
  intro text rest other hother hcs
  obtain ⟨-, hdigits | ⟨ds, fs, rfl, hds, hfs⟩⟩ | ⟨hname, -⟩ | ⟨hjoins, -⟩ | rfl := hother.classes
  · rw [hcs]
    exact length_le_number c hdigits
  · have hnumber := number_of_point c hds hfs rest
    rw [hcs, List.append_assoc, List.cons_append, hnumber]
    simp only [List.length_append, List.length_cons]
    omega
  · exact absurd hc hname.not_digit.1
  · exact absurd hc hjoins.not_others.1
  · exact Nat.zero_le _

/-- What is scanned as a name is the longest lexeme. -/
theorem longest_name (cs : List Char) (hc : NameStart c) :
    Reading (c :: cs.take (name c cs).2) (.ok (name c cs).1) ∧
      Longest (c :: cs.take (name c cs).2) (cs.drop (name c cs).2) := by
  have htake : cs.take (name c cs).2 = cs.takeWhile isNameRest := by
    rw [name_length, take_takeWhile]
  have hshape : NameShape (c :: cs.takeWhile isNameRest) :=
    ⟨hc, fun d hd => isNameRest_iff.mp (List.mem_takeWhile_imp hd)⟩
  have hreading : Reading (c :: cs.take (name c cs).2) (.ok (name c cs).1) := by
    rw [htake]
    unfold name
    dsimp only
    split
    · next hword => exact .keyword hshape (ofSpelling?_eq_some_iff.mp hword)
    · next hfree => exact .identifier hshape (ofSpelling?_eq_none_iff.mp hfree)
  refine ⟨hreading, longest_of_le hreading ?_⟩
  intro text rest other hother hcs
  obtain ⟨hdigit, -⟩ | ⟨-, hrest⟩ | ⟨hjoins, -⟩ | rfl := hother.classes
  · exact absurd hdigit hc.not_digit.1
  · rw [name_length, hcs]
    exact length_le_takeWhile fun d hd => isNameRest_iff.mpr (hrest d hd)
  · exact absurd hc hjoins.not_others.2
  · exact Nat.zero_le _

/-- A run of operator characters is the longest lexeme, whether it is an operator or not. -/
theorem longest_operator (cs : List Char) (hc : Joining c) :
    ∃ reading, Reading (c :: cs.takeWhile isOperatorChar) reading ∧
      operator c cs = reading.map (fun token => (token, (cs.takeWhile isOperatorChar).length)) ∧
      Longest (c :: cs.takeWhile isOperatorChar) (cs.drop (cs.takeWhile isOperatorChar).length) := by
  have hrun : ∀ d ∈ c :: cs.takeWhile isOperatorChar, Joining d := by
    intro d hd
    obtain rfl | hd := List.mem_cons.mp hd
    · exact hc
    · exact isOperatorChar_iff.mp (List.mem_takeWhile_imp hd)
  have hle : ∀ text rest other, Reading (c :: text) other → cs = text ++ rest →
      text.length ≤ (cs.takeWhile isOperatorChar).length := by
    intro text rest other hother hcs
    obtain ⟨hdigit, -⟩ | ⟨hname, -⟩ | ⟨-, hrest⟩ | rfl := hother.classes
    · exact absurd hdigit hc.not_others.1
    · exact absurd hname hc.not_others.2
    · rw [hcs]
      exact length_le_takeWhile fun d hd => isOperatorChar_iff.mpr (hrest d hd)
    · exact Nat.zero_le _
  have hlongest {reading : Except Flaw Token}
      (hreading : Reading (c :: cs.takeWhile isOperatorChar) reading) :
      Longest (c :: cs.takeWhile isOperatorChar)
        (cs.drop (cs.takeWhile isOperatorChar).length) := by
    have hreading' : Reading (c :: cs.take (cs.takeWhile isOperatorChar).length) reading := by
      rw [take_takeWhile]
      exact hreading
    have hlongest' := longest_of_le hreading' hle
    rwa [take_takeWhile] at hlongest'
  unfold operator
  dsimp only
  cases hmark : Symbol.ofRun? (c :: cs.takeWhile isOperatorChar) with
  | some mark =>
    obtain ⟨hmem, hspelled⟩ := ofRun?_eq_some_iff.mp hmark
    have hreading : Reading (c :: cs.takeWhile isOperatorChar) (.ok (.symbol mark)) := by
      rw [← hspelled]
      exact .operator hmem
    exact ⟨.ok (.symbol mark), hreading, rfl, hlongest hreading⟩
  | none =>
    have hnone : ∀ mark ∈ operators, mark.spelling.toList ≠ c :: cs.takeWhile isOperatorChar := by
      intro mark hmem hspelled
      have hsome := ofRun?_eq_some_iff.mpr ⟨hmem, hspelled⟩
      rw [hmark] at hsome
      cases hsome
    have hreading := Reading.malformed (List.cons_ne_nil _ _) hrun hnone
    exact ⟨_, hreading, rfl, hlongest hreading⟩

/-- No lexeme starts with a blank or a quote. -/
theorem Reading.first {reading : Except Flaw Token} (h : Reading (c :: cs) reading) :
    ¬ Blank c ∧ c ≠ '"' := by
  have hlexeme := lexeme_of_reading h
  refine ⟨?_, ?_⟩
  · intro hblank
    have hillegal : lexeme c cs = .error (.illegalCharacter c) := by
      simp only [Blank, List.mem_cons, List.not_mem_nil, or_false] at hblank
      obtain rfl | rfl | rfl | rfl := hblank <;> rfl
    rw [hillegal] at hlexeme
    generalize c :: cs = text at h
    cases h <;> cases hlexeme
  · rintro rfl
    rw [lexeme, if_neg (by decide), if_pos rfl] at hlexeme
    generalize '"' :: cs = text at h
    split at hlexeme <;> cases h <;> cases hlexeme

theorem Reading.exists_cons {text : List Char} {reading : Except Flaw Token}
    (h : Reading text reading) : ∃ c cs, text = c :: cs := by
  cases h with
  | integer hsome => exact List.exists_cons_of_ne_nil hsome
  | float hsome => exact List.exists_cons_of_ne_nil (by simp)
  | @keyword text _ hshape => cases text with
    | nil => exact hshape.elim
    | cons c cs => exact ⟨c, cs, rfl⟩
  | @identifier text hshape => cases text with
    | nil => exact hshape.elim
    | cons c cs => exact ⟨c, cs, rfl⟩
  | @mark mark => cases mark <;> exact ⟨_, _, rfl⟩
  | newline => exact ⟨_, _, rfl⟩
  | @operator mark => cases mark <;> exact ⟨_, _, rfl⟩
  | malformed hsome => exact List.exists_cons_of_ne_nil hsome

/-- Where the scanner finds no lexeme whatever the text goes on with, there is none. -/
theorem no_reading_of_illegal (hillegal : ∀ text, lexeme c text = .error (.illegalCharacter c)) :
    ∀ text rest reading, Reading text reading → text ++ rest ≠ c :: cs := by
  intro text rest reading hreading happend
  obtain ⟨d, ds, rfl⟩ := hreading.exists_cons
  obtain ⟨rfl, -⟩ := List.cons.inj happend
  have hlexeme := lexeme_of_reading hreading
  rw [hillegal ds] at hlexeme
  generalize d :: ds = text at hreading
  cases hreading <;> cases hlexeme

/-- At a character that is no quote the scanner takes the longest lexeme, or there is none. -/
theorem lexeme_cases (cs : List Char) (hquote : c ≠ '"') :
    (∃ text rest reading, cs = text ++ rest ∧ Longest (c :: text) rest ∧
      Reading (c :: text) reading ∧
      lexeme c cs = reading.map fun token => (token, text.length)) ∨
    ((∀ text rest reading, Reading text reading → text ++ rest ≠ c :: cs) ∧
      lexeme c cs = .error (.illegalCharacter c)) := by
  have hsplit (k : Nat) : cs = cs.take k ++ cs.drop k := (List.take_append_drop k cs).symm
  by_cases hdigit : Digit c
  · obtain ⟨hreading, hlongest⟩ := longest_number cs hdigit
    refine .inl ⟨_, _, _, hsplit _, hlongest, hreading, ?_⟩
    rw [lexeme_of_digit hdigit, List.length_take_of_le (number_le c cs)]
    rfl
  by_cases hname : NameStart c
  · obtain ⟨hreading, hlongest⟩ := longest_name cs hname
    refine .inl ⟨_, _, _, hsplit _, hlongest, hreading, ?_⟩
    rw [lexeme_of_nameStart hname, name_length, take_takeWhile, ← name_length c cs]
    rfl
  by_cases hjoins : Joining c
  · obtain ⟨reading, hreading, hoperator, hlongest⟩ := longest_operator cs hjoins
    refine .inl ⟨_, _, reading, ?_, hlongest, hreading, ?_⟩
    · have hcs := hsplit (cs.takeWhile isOperatorChar).length
      rwa [take_takeWhile] at hcs
    · rw [lexeme_of_joining hjoins, hoperator]
  -- no class joins this character with what follows, so what the scanner makes of it is fixed
  have hfixed : ∀ text, lexeme c text = if isSeparator c then .ok (.newline, 0)
      else (Symbol.ofChar? c).elim (.error (.illegalCharacter c)) fun mark =>
        .ok (.symbol mark, 0) := by
    intro text
    rw [← isDigit_iff] at hdigit
    rw [← isNameStart_iff] at hname
    rw [← isOperatorChar_iff] at hjoins
    rw [lexeme, if_neg hdigit, if_neg hquote, if_neg hname, if_neg hjoins]
    cases Symbol.ofChar? c <;> rfl
  have halone {reading : Except Flaw Token} (hreading : Reading [c] reading) : Longest [c] cs := by
    refine ⟨⟨reading, hreading⟩, ?_⟩
    intro text rest other hother happend
    obtain ⟨d, ds, rfl⟩ := hother.exists_cons
    obtain ⟨rfl, -⟩ := List.cons.inj happend
    obtain ⟨hd, -⟩ | ⟨hd, -⟩ | ⟨hd, -⟩ | rfl := hother.classes
    · exact absurd hd hdigit
    · exact absurd hd hname
    · exact absurd hd hjoins
    · exact Nat.le_refl 1
  by_cases hseparator : isSeparator c = true
  · have hc : c = '\n' ∨ c = '\u204b' := by
      simpa [isSeparator] using hseparator
    refine .inl ⟨[], cs, .ok .newline, rfl, halone (.newline hc), .newline hc, ?_⟩
    rw [hfixed, if_pos hseparator]
    rfl
  simp only [if_neg hseparator] at hfixed
  cases hmark : Symbol.ofChar? c with
  | some mark =>
    simp only [hmark, Option.elim_some] at hfixed
    obtain ⟨hmem, hspelled⟩ := ofChar?_eq_some_iff.mp hmark
    have hreading : Reading [c] (.ok (.symbol mark)) := by
      rw [← hspelled]
      exact .mark hmem
    exact .inl ⟨[], cs, .ok (.symbol mark), rfl, halone hreading, hreading, hfixed cs⟩
  | none =>
    simp only [hmark, Option.elim_none] at hfixed
    exact .inr ⟨no_reading_of_illegal hfixed, hfixed cs⟩

/-! ### Strings -/

theorem stringRest_cons (hquote : c ≠ '"') (hbackslash : c ≠ '\\') :
    stringRest (c :: cs) = (stringRest cs).map fun (value, k) => (c :: value, k + 1) := by
  rw [stringRest.eq_def]
  split <;> simp_all

theorem stringRest_of_quoted {value text : List Char} (h : Quoted value text) (rest : List Char) :
    stringRest (text ++ '"' :: rest) = some (value, text.length + 1) := by
  induction h with
  | nil => rfl
  | plain hquote hbackslash _ ih =>
    rw [List.cons_append, stringRest_cons hquote hbackslash, ih]
    rfl
  | escaped _ ih =>
    simp [stringRest, ih]

theorem quoted_of_stringRest {cs value : List Char} {k : Nat}
    (h : stringRest cs = some (value, k)) :
    ∃ text rest, Quoted value text ∧ cs = text ++ '"' :: rest ∧ k = text.length + 1 := by
  fun_induction stringRest cs generalizing value k with
  | case1 => cases h
  | case2 rest =>
    cases h
    exact ⟨[], rest, .nil, rfl, rfl⟩
  | case3 => cases h
  | case4 c cs ih =>
    obtain ⟨⟨value', k'⟩, hrest, hpair⟩ := Option.map_eq_some_iff.mp h
    cases hpair
    obtain ⟨text, rest, hquoted, rfl, rfl⟩ := ih hrest
    exact ⟨'\\' :: c :: text, rest, .escaped hquoted, rfl, rfl⟩
  | case5 c cs hquote hlast hbackslash ih =>
    obtain ⟨⟨value', k'⟩, hrest, hpair⟩ := Option.map_eq_some_iff.mp h
    cases hpair
    obtain ⟨text, rest, hquoted, rfl, rfl⟩ := ih hrest
    refine ⟨c :: text, rest, .plain ?_ ?_ hquoted, rfl, rfl⟩
    · exact hquote
    · intro hc
      obtain ⟨d, ds, hcons⟩ : ∃ d ds, text ++ '"' :: rest = d :: ds :=
        List.exists_cons_of_ne_nil (by simp)
      exact hbackslash d ds hc hcons

/-! ### Whole texts -/

/-- Characters that are skipped only move the position. -/
theorem tokensFrom_skip (p : Position) (text rest : List Char) :
    tokensFrom p text.length (text ++ rest) = tokensFrom (p.advanceAll text) 0 rest := by
  induction text generalizing p with
  | nil => rfl
  | cons c text ih => exact ih (p.advance c)

theorem tokensFrom_lexeme {p : Position} {text rest : List Char} {token : Token}
    (hblank : ¬ Blank c) (hlexeme : lexeme c (text ++ rest) = .ok (token, text.length)) :
    tokensFrom p 0 (c :: (text ++ rest)) =
      (tokensFrom (p.advanceAll (c :: text)) 0 rest).map (⟨token, p⟩ :: ·) := by
  rw [← isBlank_iff] at hblank
  rw [tokensFrom, if_neg hblank, hlexeme]
  show (tokensFrom (p.advance c) text.length (text ++ rest)).map _ = _
  rw [tokensFrom_skip]
  rfl

theorem tokensFrom_flaw {p : Position} {flaw : Flaw} (hblank : ¬ Blank c)
    (hlexeme : lexeme c cs = .error flaw) : tokensFrom p 0 (c :: cs) = .error ⟨flaw, p⟩ := by
  rw [← isBlank_iff] at hblank
  rw [tokensFrom, if_neg hblank, hlexeme]

theorem tokensFrom_blank {p : Position} (hblank : Blank c) :
    tokensFrom p 0 (c :: cs) = tokensFrom (p.advance c) 0 cs := by
  rw [tokensFrom, if_pos (isBlank_iff.mpr hblank)]

theorem not_blank_quote : ¬ Blank '"' := by
  unfold Blank
  decide

theorem tokensFrom_string {p : Position} {value text rest : List Char} (h : Quoted value text) :
    tokensFrom p 0 ('"' :: (text ++ '"' :: rest)) =
      (tokensFrom (p.advanceAll ('"' :: (text ++ ['"']))) 0 rest).map
        (⟨.str (String.ofList value), p⟩ :: ·) := by
  have hstring : lexeme '"' ((text ++ ['"']) ++ rest) =
      .ok (.str (String.ofList value), (text ++ ['"']).length) := by
    rw [← List.append_cons]
    unfold lexeme
    simp [stringRest_of_quoted h rest]
  rw [List.append_cons]
  exact tokensFrom_lexeme not_blank_quote hstring

theorem tokensFrom_unclosed {p : Position}
    (hnone : ∀ value text rest, Quoted value text → text ++ '"' :: rest ≠ cs) :
    tokensFrom p 0 ('"' :: cs) = .error ⟨.malformedString, p⟩ := by
  have hrest : stringRest cs = none := by
    rw [Option.eq_none_iff_forall_ne_some]
    rintro ⟨value, k⟩ hsome
    obtain ⟨text, rest, hquoted, hcs, -⟩ := quoted_of_stringRest hsome
    exact hnone value text rest hquoted hcs.symm
  have hstring : lexeme '"' cs = .error .malformedString := by
    unfold lexeme
    simp [hrest]
  exact tokensFrom_flaw not_blank_quote hstring

/-- The scanner splits every text as the reference does. -/
theorem scans_tokensFrom (p : Position) (cs : List Char) : Scans p cs (tokensFrom p 0 cs) := by
  -- what follows a lexeme is shorter, since a lexeme is not empty
  induction hn : cs.length using Nat.strongRecOn generalizing p cs with
  | ind n ih =>
    cases cs with
    | nil => exact .eof
    | cons c cs =>
      have hshorter {text rest : List Char} (hcs : cs = text ++ rest) : rest.length < n := by
        rw [← hn, hcs, List.length_cons, List.length_append]
        omega
      by_cases hblank : Blank c
      · rw [tokensFrom_blank hblank]
        have hcs : cs = [] ++ cs := rfl
        exact .blank hblank (ih _ (hshorter hcs) _ _ rfl)
      by_cases hquote : c = '"'
      · subst hquote
        by_cases hclosed : ∃ value text rest, Quoted value text ∧ text ++ '"' :: rest = cs
        · obtain ⟨value, text, rest, hquoted, rfl⟩ := hclosed
          rw [tokensFrom_string hquoted]
          exact .string hquoted (ih _ (hshorter (List.append_cons _ _ _)) _ _ rfl)
        · have hnone : ∀ value text rest, Quoted value text → text ++ '"' :: rest ≠ cs :=
            fun value text rest hquoted hcs => hclosed ⟨value, text, rest, hquoted, hcs⟩
          rw [tokensFrom_unclosed hnone]
          exact .unclosed hnone
      obtain ⟨text, rest, reading, rfl, hlongest, hreading, hlexeme⟩ | ⟨hnone, hillegal⟩ :=
        lexeme_cases cs hquote
      · cases reading with
        | ok token =>
          rw [tokensFrom_lexeme hblank hlexeme]
          exact .lexeme hlongest hreading (ih _ (hshorter rfl) _ _ rfl)
        | error flaw =>
          rw [tokensFrom_flaw hblank hlexeme]
          exact .malformed hlongest hreading
      · rw [tokensFrom_flaw hblank hillegal]
        exact .illegal hblank hquote hnone

/-- The longest lexeme at a place is the one that the scanner takes. -/
theorem lexeme_of_longest {text rest : List Char} {reading : Except Flaw Token}
    (hlongest : Longest (c :: text) rest) (hreading : Reading (c :: text) reading) :
    lexeme c (text ++ rest) = reading.map fun token => (token, text.length) := by
  obtain ⟨text', rest', reading', happend, hlongest', hreading', hlexeme⟩ | ⟨hnone, -⟩ :=
    lexeme_cases (text ++ rest) hreading.first.2
  · have hle := hlongest.longest (c :: text') rest' reading' hreading' (by simp [happend])
    have hge := hlongest'.longest (c :: text) rest reading hreading (by simp [happend])
    have hlength : text.length = text'.length := by
      simp only [List.length_cons] at hle hge
      omega
    obtain ⟨rfl, rfl⟩ := List.append_inj happend hlength
    have hsame := lexeme_of_reading hreading
    rw [lexeme_of_reading hreading'] at hsame
    rw [hlexeme, hsame]
  · exact absurd rfl (hnone (c :: text) rest reading hreading)

/-- The reference splits a text in one way only, the scanner's. -/
theorem tokensFrom_of_scans {p : Position} {result : Except LexError (List Located)}
    (h : Scans p cs result) : tokensFrom p 0 cs = result := by
  induction h with
  | eof => rfl
  | blank hblank _ ih => rw [tokensFrom_blank hblank, ih]
  | string hquoted _ ih => rw [tokensFrom_string hquoted, ih]
  | unclosed hnone => exact tokensFrom_unclosed hnone
  | lexeme hlongest hreading _ ih =>
    obtain ⟨c, text, rfl⟩ := hreading.exists_cons
    rw [List.cons_append, tokensFrom_lexeme hreading.first.1 (lexeme_of_longest hlongest hreading),
      ih]
  | malformed hlongest hreading =>
    obtain ⟨c, text, rfl⟩ := hreading.exists_cons
    exact tokensFrom_flaw hreading.first.1 (lexeme_of_longest hlongest hreading)
  | @illegal p c cs hblank hquote hnone =>
    obtain ⟨text, rest, reading, rfl, -, hreading, -⟩ | ⟨-, hillegal⟩ := lexeme_cases cs hquote
    · exact absurd rfl (hnone (c :: text) rest reading hreading)
    · exact tokensFrom_flaw hblank hillegal

end lexeme

end Lexicon

open Lexicon in
/-- The lexer is the longest-match lexer of its token table: it splits every text, or refuses it, as
the reference does and in no other way. Where it splits a text, the end of input comes last and
nowhere else, and nothing is malformed. -/
theorem tokenize_longest_match (source : String) :
    (∀ result, tokenize source = result ↔ Scans .start source.toList result) ∧
      ∀ tokens, tokenize source = .ok tokens →
        ∃ init q, tokens = init ++ [⟨.eof, q⟩] ∧
          ∀ t ∈ init, t.token ≠ .eof ∧ ∀ text, t.token ≠ .malformed text := by
  refine ⟨?_, ?_⟩
  · intro result
    constructor
    · rintro rfl
      exact scans_tokensFrom _ _
    · exact tokensFrom_of_scans
  · intro tokens htokens
    obtain ⟨init, q, htokens, hinit⟩ := tokenize_shape htokens
    refine ⟨init, q, htokens, ?_⟩
    intro t ht
    refine ⟨(hinit t ht).ne_eof, ?_⟩
    intro text hmalformed
    have hlexical := (hinit t ht).lexical
    rw [hmalformed] at hlexical
    exact hlexical

/-- The tokens of `x<=2.`. -/
def comparisonTokens : List Located :=
  [⟨.identifier "x", ⟨0, 0, 0⟩⟩, ⟨.symbol .lessEqual, ⟨1, 0, 1⟩⟩, ⟨.float "2.", ⟨3, 0, 3⟩⟩,
    ⟨.eof, ⟨5, 0, 5⟩⟩]

theorem comparison_splits_longest :
    tokenize "x<=2." = .ok comparisonTokens ∧
      Lexicon.Scans .start "x<=2.".toList (.ok comparisonTokens) ∧
      ∃ init q, comparisonTokens = init ++ [⟨.eof, q⟩] ∧
        ∀ t ∈ init, t.token ≠ .eof ∧ ∀ text, t.token ≠ .malformed text := by
  have hsplit : tokenize "x<=2." = .ok comparisonTokens := by decide
  have hlongest := tokenize_longest_match "x<=2."
  exact ⟨hsplit, (hlongest.1 _).mp hsplit, hlongest.2 _ hsplit⟩

end LineScript
