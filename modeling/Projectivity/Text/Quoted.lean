/-!
# Quoted text

A text is quoted with single quotes, and with double quotes if it holds a single
quote and no double quote.  Backslashes, the quote in use and control characters
are escaped.
-/

set_option autoImplicit false

namespace Projectivity.Text.Quoted

/-- A number in base sixteen, filled with zeros to a width. -/
def hex (width n : Nat) : List Char :=
  let digits := Nat.toDigits 16 n
  List.replicate (width - digits.length) '0' ++ digits

/-- Whether a character is shown by its code. -/
def isHidden (c : Char) : Bool :=
  let n := c.toNat
  n < 32 || (127 ≤ n && n ≤ 160) || n == 0xAD || (0x2028 ≤ n && n ≤ 0x202F) ||
    (0x200B ≤ n && n ≤ 0x200F) || n == 0xFEFF || n == 0x3000 || (0x2000 ≤ n && n ≤ 0x200A)

/-- A character between the given quotes. -/
def escape (quote c : Char) : List Char :=
  if c == '\\' || c == quote then ['\\', c]
  else if c == '\n' then ['\\', 'n']
  else if c == '\r' then ['\\', 'r']
  else if c == '\t' then ['\\', 't']
  else if isHidden c then
    let n := c.toNat
    if n < 0x100 then '\\' :: 'x' :: hex 2 n
    else if n < 0x10000 then '\\' :: 'u' :: hex 4 n
    else '\\' :: 'U' :: hex 8 n
  else [c]

/-- The quote that a text is put between. -/
def quoteFor (cs : List Char) : Char :=
  if cs.contains '\x27' && !cs.contains '"' then '"' else '\x27'

/-- A text between quotes. -/
def render (s : String) : String :=
  let cs := s.toList
  let quote := quoteFor cs
  String.ofList (quote :: cs.flatMap (escape quote) ++ [quote])

end Projectivity.Text.Quoted
