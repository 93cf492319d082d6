import Projectivity.Yaml.Cursor

/-!
# Scalars in a document

Reading quoted and plain scalars, which may extend over several lines.  A single
line break inside of a scalar counts as a space, and of several breaks the first one
is dropped.
-/

set_option autoImplicit false

namespace Projectivity.Yaml.Scalar

/-- What a line break and the empty lines behind it stand for. -/
def folded (lineBreak : Char) (more : List Char) : List Char :=
  if lineBreak != '\n' then lineBreak :: more
  else if more.isEmpty then [' ']
  else more

/-- The character that a letter stands for behind a backslash. -/
def escapes : List (Char × Char) :=
  [('0', '\x00'), ('a', '\x07'), ('b', '\x08'), ('t', '\t'), ('\t', '\t'), ('n', '\n'),
    ('v', '\x0b'), ('f', '\x0c'), ('r', '\r'), ('e', '\x1b'), (' ', ' '), ('"', '"'),
    ('\\', '\\'), ('/', '/'), ('N', '\u0085'), ('_', '\u00a0'), ('L', '\u2028'),
    ('P', '\u2029')]

/-- The number of digits of a code behind a letter. -/
def codeLengths : List (Char × Nat) := [('x', 2), ('u', 4), ('U', 8)]

/-- The value of a digit in base sixteen. -/
def hexDigit? (c : Char) : Option Nat :=
  if c.isDigit then some (c.toNat - '0'.toNat)
  else if 'a' ≤ c ∧ c ≤ 'f' then some (c.toNat - 'a'.toNat + 10)
  else if 'A' ≤ c ∧ c ≤ 'F' then some (c.toNat - 'A'.toNat + 10)
  else none

/-- The character with a code of the given number of digits. -/
def code? (cs : List Char) (length : Nat) : Option Char :=
  if cs.length < length then none
  else ((cs.take length).mapM hexDigit?).map fun digits =>
    Char.ofNat (digits.foldl (fun n d => 16 * n + d) 0)

/-- The empty lines inside of a quoted scalar.  A mark between documents is refused. -/
def quotedBreaks : Nat → Cursor → Option (List Char × Cursor)
  | 0, _ => none
  | fuel + 1, c =>
    if c.atDocument then none
    else
      let (_, c) := c.run isGap
      match c.lineBreak? with
      | some x => (quotedBreaks fuel c.next).map fun (more, c) => (x :: more, c)
      | none => some ([], c)

/-- The space at the cursor inside of a quoted scalar. -/
def quotedSpace (fuel : Nat) (c : Cursor) : Option (List Char × Cursor) :=
  let (gap, c) := c.run isGap
  match c.lineBreak? with
  | some x => (quotedBreaks fuel c.next).map fun (more, c) => (folded x more, c)
  | none => if c.rest.isEmpty then none else some (gap, c)

/-- The escape at the cursor, behind its backslash. -/
def escape (fuel : Nat) (c : Cursor) : Option (List Char × Cursor) := do
  let x ← c.peek 0
  match escapes.lookup x with
  | some y => return ([y], c.next)
  | none =>
    match codeLengths.lookup x with
    | some length =>
      let y ← code? c.next.rest length
      return ([y], c.next.skip length)
    | none =>
      if isBreak x then quotedBreaks fuel c.next else none

/-- The rest of a quoted scalar, and the cursor behind its closing quote. -/
def quoted (quote : Char) : Nat → Cursor → Option (List Char × Cursor)
  | 0, _ => none
  | fuel + 1, c => do
    let x ← c.peek 0
    if x == quote && !(quote == '\x27' && c.peek 1 == some quote) then return ([], c.next)
    else
      let (part, c) ←
        if x == quote then some ([x], c.skip 2)
        else if isGap x || isBreak x then quotedSpace fuel c
        else if x == '\\' && quote == '"' then escape fuel c.next
        else some ([x], c.next)
      let (more, c) ← quoted quote fuel c
      return (part ++ more, c)

/-- The length of the word at the start of a text.  A colon ends a word if a separator follows
it, and inside of brackets the characters of brackets end it, too. -/
def wordLength (inFlow : Bool) : List Char → Nat
  | [] => 0
  | x :: rest =>
    let next := rest.head?
    let colon := x == ':' && (endsWord next ||
      (inFlow && match next with
        | some y => [',', '[', ']', '\x7b', '\x7d'].contains y
        | none => false))
    if isGap x || isBreak x || colon ||
        (inFlow && [',', '?', '[', ']', '\x7b', '\x7d'].contains x) then 0
    else wordLength inFlow rest + 1

/-- The empty lines and the indentation behind a line of a plain scalar.  There are none in front
of a mark between documents. -/
def plainBreaks : Nat → Cursor → Option (List Char) × Cursor
  | 0, c => (none, c)
  | fuel + 1, c =>
    if c.at? ' ' then plainBreaks fuel c.next
    else match c.lineBreak? with
      | some x =>
        if c.next.atDocument then (none, c.next)
        else
          let (more, c) := plainBreaks fuel c.next
          (more.map (x :: ·), c)
      | none => (some [], c)

/-- The space behind a word of a plain scalar, the cursor behind it, and whether a line ended.
There is no space in front of a mark between documents. -/
def plainSpace (fuel : Nat) (c : Cursor) : List Char × Cursor × Bool :=
  let (gap, c) := c.run (· == ' ')
  match c.lineBreak? with
  | some x =>
    if c.next.atDocument then ([], c.next, true)
    else
      let (more, c) := plainBreaks fuel c.next
      ((more.map (folded x)).getD [], c, true)
  | none => (gap, c, false)

/-- A plain scalar whose further lines have to be indented by at least the given number of
columns, the cursor behind it, and whether a line ended behind its last word. -/
def plain (inFlow : Bool) (indent : Int) : Nat → Cursor → List Char → List Char × Cursor × Bool
  | 0, c, _ => ([], c, false)
  | fuel + 1, c, space =>
    let length := wordLength inFlow c.rest
    let word := c.rest.take length
    let (gap, c, broke) := plainSpace fuel (c.skip length)
    let ends := gap.isEmpty || c.at? '#' || (!inFlow && decide ((c.column : Int) < indent)) ||
      wordLength inFlow c.rest == 0
    if ends then (space ++ word, c, broke)
    else
      let (more, c, broke) := plain inFlow indent fuel c gap
      (space ++ word ++ more, c, broke)

end Projectivity.Yaml.Scalar
