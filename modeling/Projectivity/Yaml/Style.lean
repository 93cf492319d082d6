import Projectivity.Text.Quoted
import Projectivity.Yaml.Plain

/-!
# Styles of scalars

A text is written plainly if it then reads back as that text.  Otherwise it stands
between single quotes, and between double quotes if it holds characters that have to
be escaped.  Long lines are broken at single spaces.
-/

set_option autoImplicit false

namespace Projectivity.Yaml

/-- The three ways to write a text. -/
inductive Style where
  | plain
  | single
  | double
deriving DecidableEq

namespace Style

/-- Whether a character needs no escape. -/
def isOrdinary (c : Char) : Bool := c == '\n' || (decide (' ' ≤ c) && decide (c ≤ '~'))

/-- Whether a character separates words. -/
def isSeparator (c : Char) : Bool := c == ' ' || c == '\n'

/-- Whether a space and a line break stand side by side. -/
def hasRaggedBreak : List Char → Bool
  | a :: b :: rest => (isSeparator a && isSeparator b && a != b) || hasRaggedBreak (b :: rest)
  | _ => false

/-- The signs that have a meaning at the start of a text. -/
def leadingSigns : List Char :=
  ['#', ',', '[', ']', '\x7b', '\x7d', '&', '*', '!', '|', '>', '\x27', '"', '%', '@', '\x60']

/-- Whether a text begins with something that is more than a text. -/
def hasLeadingSign (cs : List Char) : Bool :=
  cs.take 3 == ['-', '-', '-'] || cs.take 3 == ['.', '.', '.'] ||
    match cs with
    | c :: rest =>
      leadingSigns.contains c || (['?', ':', '-'].contains c && rest.head?.all isSeparator)
    | [] => false

/-- Whether a colon at the end of a word or the start of a comment follows a character. -/
def hasInnerSign : Char → List Char → Bool
  | last, c :: rest =>
    (c == ':' && rest.head?.all isSeparator) || (c == '#' && isSeparator last) ||
      hasInnerSign c rest
  | _, [] => false

/-- Whether the signs in a text would be taken for more than text. -/
def hasSign (cs : List Char) : Bool :=
  hasLeadingSign cs ||
    match cs with
    | c :: rest => hasInnerSign c rest
    | [] => false

/-- Whether a text begins or ends with a separator. -/
def isPadded (cs : List Char) : Bool := cs.head?.any isSeparator || cs.getLast?.any isSeparator

/-- The style of a text. -/
def ofText (s : String) : Style :=
  let cs := s.toList
  if !cs.all isOrdinary || hasRaggedBreak cs then double
  else if Plain.isText s && !isPadded cs && !cs.contains '\n' && !hasSign cs then plain
  else single

/-- The column behind which a line is broken at the next place that allows it. -/
def lineWidth : Nat := 80

/-- A line break and the indentation of the next line. -/
def newLine (indent : Nat) : List Char := '\n' :: List.replicate indent ' '

/-- The spaces, the line breaks and the words of a text one after the other. -/
def runs (cs : List Char) : List (List Char) :=
  cs.splitBy fun a b => if isSeparator a || isSeparator b then a == b else true

/-- Runs written from a column on.  A single space between words becomes the end of a line that
is full, and a line break is written twice. -/
def wrap (folds : Bool) (indent : Nat) : (column : Nat) → (isFirst : Bool) → List (List Char) →
    List Char
  | _, _, [] => []
  | column, isFirst, run :: rest =>
    if folds && run == [' '] && !isFirst && !rest.isEmpty && decide (lineWidth < column) then
      newLine indent ++ wrap folds indent indent false rest
    else if run.head? == some '\n' then
      run ++ newLine indent ++ wrap folds indent indent false rest
    else run ++ wrap folds indent (column + run.length) false rest

/-- The letters that stand for characters behind a backslash. -/
def letters : List (Char × Char) :=
  [('\x00', '0'), ('\x07', 'a'), ('\x08', 'b'), ('\t', 't'), ('\n', 'n'), ('\x0b', 'v'),
    ('\x0c', 'f'), ('\r', 'r'), ('\x1b', 'e'), ('"', '"'), ('\\', '\\'), ('\u0085', 'N'),
    ('\u00a0', '_'), ('\u2028', 'L'), ('\u2029', 'P')]

/-- The escape of a character that needs one between double quotes. -/
def escape? (c : Char) : Option (List Char) :=
  let n := c.toNat
  let code (width : Nat) : List Char := (Text.Quoted.hex width n).map Char.toUpper
  match letters.lookup c with
  | some letter => some ['\\', letter]
  | none =>
    if isOrdinary c then none
    else if n < 0x100 then some ('\\' :: 'x' :: code 2)
    else if n < 0x10000 then some ('\\' :: 'u' :: code 4)
    else some ('\\' :: 'U' :: code 8)

/-- The end of a full line between double quotes.  A space at the start of the next line is
marked, so that it is not lost. -/
def continuation (indent : Nat) (next : Option Char) : List Char :=
  '\\' :: newLine indent ++ if next == some ' ' then ['\\'] else []

/-- A text with escapes, written from a column on.  A line may end in front of a space and on
either side of an escape, but not next to a quote. -/
def escaped (folds : Bool) (indent : Nat) : (column : Nat) → (isFirst afterEscape : Bool) →
    List Char → List Char
  | _, _, _, [] => []
  | column, isFirst, afterEscape, c :: rest =>
    let mayFold := folds && !isFirst && !rest.isEmpty
    match escape? c with
    | some code =>
      if mayFold && decide (lineWidth + 1 < column + code.length) then
        let next := continuation indent rest.head?
        code ++ next ++
          escaped folds indent (indent + (if rest.head? == some ' ' then 1 else 0)) false true rest
      else code ++ escaped folds indent (column + code.length) false true rest
    | none =>
      if mayFold && (c == ' ' || afterEscape) && decide (lineWidth < column) then
        continuation indent (some c) ++
          c :: escaped folds indent (indent + (if c == ' ' then 2 else 1)) false false rest
      else c :: escaped folds indent (column + 1) false false rest

/-- A text written from a column on, with the indentation of its further lines. -/
def render (folds : Bool) (indent column : Nat) (s : String) : List Char :=
  let cs := s.toList
  match ofText s with
  | plain => wrap folds indent column true (runs cs)
  | single =>
    let doubled := cs.flatMap fun c => if c == '\x27' then [c, c] else [c]
    '\x27' :: wrap folds indent (column + 1) true (runs doubled) ++ ['\x27']
  | double => '"' :: escaped folds indent (column + 1) true false cs ++ ['"']

end Style

end Projectivity.Yaml
