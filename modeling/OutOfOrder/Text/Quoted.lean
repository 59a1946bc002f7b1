import OutOfOrder.Text.Hex
import OutOfOrder.Text.Printable
/-!
# Quoted texts

An error message shows a text in quotes. The quotes are single ones,
unless the text has a single quote and no double one. A backslash and the
quote in use are escaped by a backslash, as are the line feed, the
carriage return and the tabulator; a character that is not printable is
shown by its code point.
-/

namespace OutOfOrder.Text

/-- The quote put around a text. -/
def quoteFor (s : String) : Char :=
  if s.contains '\'' && !s.contains '"' then '"' else '\''

/-- A character that is not printable, by its code point: two, four or
eight hexadecimal digits. -/
def escapeCode (n : Nat) : String :=
  if n < 0x100 then "\\x" ++ hex 2 n
  else if n < 0x10000 then "\\u" ++ hex 4 n
  else "\\U" ++ hex 8 n

/-- One character of a text inside the given quotes. -/
def escapeChar (quote c : Char) : String :=
  if c = quote || c = '\\' then String.ofList ['\\', c]
  else if c = '\n' then "\\n"
  else if c = '\r' then "\\r"
  else if c = '\t' then "\\t"
  else if isPrintable c then String.singleton c
  else escapeCode c.toNat

/-- A text in quotes, such that it can be read off one line. -/
def quoted (s : String) : String :=
  let q := quoteFor s
  String.singleton q ++ String.join (s.toList.map (escapeChar q)) ++ String.singleton q

end OutOfOrder.Text
