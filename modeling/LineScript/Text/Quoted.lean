import LineScript.Text.Unprintable
import LineScript.Text.GraphemeExtend

/-!
# Quoted text

A string in double quotes, written so that every character can be seen.

  * A quote and a backslash are preceded by a backslash; line feed, carriage return, tab and the
    null character are written `\n`, `\r`, `\t` and `\0`.
  * A character that cannot be seen, or that would be drawn on top of its neighbour, is written as
    its code point in lower-case hexadecimal, `\u{…}`.
  * Every other character stands for itself.
-/

namespace LineScript.Text

/-- How one character is written inside quotes. -/
def escape (c : Char) : List Char :=
  match c with
  | '"' => ['\\', '"']
  | '\\' => ['\\', '\\']
  | '\n' => ['\\', 'n']
  | '\r' => ['\\', 'r']
  | '\t' => ['\\', 't']
  | '\x00' => ['\\', '0']
  | c =>
    if isUnprintable c || isGraphemeExtend c then
      ['\\', 'u', '\x7b'] ++ Nat.toDigits 16 c.toNat ++ ['\x7d']
    else [c]

/-- A string in quotes. -/
def quote (s : String) : String :=
  String.ofList ('"' :: s.toList.flatMap escape ++ ['"'])

end LineScript.Text
