/-!
# Capital letters

Names are compared in capitals. All names that can match are written in
ASCII, so only letters whose capitals are ASCII matter: the small letters
of ASCII itself, and ten letters outside it, among them the ligatures,
whose capital form is two or three letters. Every other character stays
as it is; its capital, if it has one, is outside ASCII as well, and so
matches no name either way.
-/

namespace OutOfOrder.Text

/-- The letters outside ASCII whose capital form is written in ASCII. -/
def asciiCapitals : List (Char × String) :=
  [('\u00df', "SS"), ('\u0131', "I"), ('\u017f', "S"), ('\ufb00', "FF"), ('\ufb01', "FI"),
    ('\ufb02', "FL"), ('\ufb03', "FFI"), ('\ufb04', "FFL"), ('\ufb05', "ST"), ('\ufb06', "ST")]

/-- The capital form of one character. -/
def capital (c : Char) : List Char :=
  match asciiCapitals.lookup c with
  | some s => s.toList
  | none => [c.toUpper]

/-- A text in capitals, as far as names in ASCII can tell. -/
def capitals (s : String) : String := String.ofList (s.toList.flatMap capital)

end OutOfOrder.Text
