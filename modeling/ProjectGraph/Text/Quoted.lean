import ProjectGraph.Text.Printable

/-! # Quoted text

Messages show a text between quotes. The quote is a single one, unless the text holds single quotes
and no double ones. The backslash, the quote in use and every unprintable character are escaped. -/

namespace ProjectGraph.Text

/-- The lower-case hexadecimal digit of `n`, for `n < 16`. -/
def hexDigit (n : Nat) : Char :=
  if n < 10 then Char.ofNat ('0'.toNat + n) else Char.ofNat ('a'.toNat + (n - 10))

/-- The last `width` hexadecimal digits of `n`, most significant first. -/
def hexDigits : (width n : Nat) → List Char
  | 0, _ => []
  | width + 1, n => hexDigits width (n / 16) ++ [hexDigit (n % 16)]

/-- An unprintable character is written by its code point, in the shortest of three widths. -/
def escapeCode (c : Char) : List Char :=
  if c.toNat < 0x100 then '\\' :: 'x' :: hexDigits 2 c.toNat
  else if c.toNat < 0x10000 then '\\' :: 'u' :: hexDigits 4 c.toNat
  else '\\' :: 'U' :: hexDigits 8 c.toNat

/-- How `c` is written between quotes `quote`. -/
def quoteChar (quote c : Char) : List Char :=
  if c = quote ∨ c = '\\' then ['\\', c]
  else if c = '\n' then ['\\', 'n']
  else if c = '\r' then ['\\', 'r']
  else if c = '\t' then ['\\', 't']
  else if isPrintable c then [c]
  else escapeCode c

/-- The quote around a text. -/
def quoteOf (cs : List Char) : Char :=
  if '\'' ∈ cs ∧ '"' ∉ cs then '"' else '\''

/-- The text between quotes, with its escapes. -/
def quotedChars (cs : List Char) : List Char :=
  let quote := quoteOf cs
  quote :: (cs.flatMap (quoteChar quote) ++ [quote])

/-- The text between quotes, with its escapes. -/
def quoted (s : String) : String :=
  String.ofList (quotedChars s.toList)

/-- A list of texts between brackets, each text between quotes. -/
def quotedList (items : List String) : String :=
  "[" ++ ", ".intercalate (items.map quoted) ++ "]"

example : quoted "it's" = "\"it's\"" := by decide
example : quoted "a\"b'\\c" = "'a\"b\\'\\\\c'" := by decide
example : quoted "\x7f" = "'\\x7f'" := by decide +kernel
example : quoted "\u200b" = "'\\u200b'" := by decide +kernel

end ProjectGraph.Text
