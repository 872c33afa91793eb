import Sentential.Text.GraphemeExtend
import Sentential.Text.Printable

namespace Sentential.Text

/-- The lowercase hexadecimal digits of a code point between `\u\x7b` and a closing brace. -/
def codePointEscape (c : Char) : String :=
  "\\u\x7b" ++ String.ofList (Nat.toDigits 16 c.toNat) ++ "\x7d"

/-- The two halfwidth sound marks of Katakana. They are grapheme extenders and yet take a place of their own,
    so that they can be told from the character before them. -/
def isHalfwidthSoundMark (c : Char) : Bool :=
  c == '\uFF9E' || c == '\uFF9F'

/-- Whether a character shows, and shows apart from its neighbours. -/
def isDistinct (c : Char) : Bool :=
  isPrintable c && (!isGraphemeExtender c || isHalfwidthSoundMark c)

/-- A character as it stands inside quotation marks of the given kind. NUL, tab, carriage return,
    newline, backslash and the mark itself take a backslash; a character that could not be seen or
    would merge with its neighbour is written by its code point. -/
def quotedChar (mark : Char) (c : Char) : String :=
  match c with
  | '\x00' => "\\0"
  | '\t' => "\\t"
  | '\r' => "\\r"
  | '\n' => "\\n"
  | '\\' => "\\\\"
  | c =>
    if c == mark then String.ofList ['\\', c]
    else if isDistinct c then String.singleton c
    else codePointEscape c

/-- A single character between single quotation marks. -/
def quoteChar (c : Char) : String :=
  "'" ++ quotedChar '\'' c ++ "'"

/-- A string between double quotation marks. -/
def quoteString (s : String) : String :=
  "\"" ++ String.join (s.toList.map (quotedChar '"')) ++ "\""

end Sentential.Text
