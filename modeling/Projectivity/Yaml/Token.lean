import Projectivity.Yaml.Scalar

/-!
# Tokens of a document

The words of a document: scalars, the signs between them, and the starts and ends of
blocks, which follow from the indentation.  A key is recognized by the colon behind
it, so the token that announces a key is inserted when the colon is found.
-/

set_option autoImplicit false

namespace Projectivity.Yaml

/-- A word of a document. -/
inductive Token where
  | documentStart
  | documentEnd
  | sequenceStart
  | mappingStart
  | blockEnd
  | bracketOpen
  | bracketClose
  | braceOpen
  | braceClose
  | entry
  | comma
  | key
  | value
  | plain (text : String)
  | quoted (text : String)
deriving DecidableEq

/-- A scalar or a bracket that may turn out to begin a key. -/
structure PendingKey where
  /-- The number of tokens in front of it. -/
  position : Nat
  /-- Whether only a key can stand there. -/
  required : Bool
  index : Nat
  line : Nat
  column : Nat

/-- A document in the course of reading. -/
structure Scan where
  cursor : Cursor
  tokens : Array Token
  /-- The columns of the open blocks, the innermost first. -/
  blocks : List Nat
  /-- Whether a key may begin here. -/
  keyAllowed : Bool
  /-- The key that may be pending outside of brackets. -/
  outer : Option PendingKey
  /-- The keys that may be pending inside of the open brackets, the innermost first. -/
  brackets : List (Option PendingKey)

namespace Scan

/-- The start of a document. -/
def start (cs : List Char) : Scan := ⟨.start cs, #[], [], true, none, []⟩

/-- Whether the cursor is inside of brackets. -/
def inFlow (s : Scan) : Bool := !s.brackets.isEmpty

/-- The column of the innermost block, and minus one outside of all blocks. -/
def indent (s : Scan) : Int :=
  match s.blocks with
  | column :: _ => column
  | [] => -1

/-- A scan with a further token. -/
def emit (s : Scan) (t : Token) : Scan := { s with tokens := s.tokens.push t }

/-- A scan whose cursor is behind a number of characters. -/
def skip (s : Scan) (n : Nat) : Scan := { s with cursor := s.cursor.skip n }

/-- The key that may be pending here. -/
def pending (s : Scan) : Option PendingKey :=
  match s.brackets with
  | key :: _ => key
  | [] => s.outer

/-- A scan with another key pending here. -/
def withPending (s : Scan) (key : Option PendingKey) : Scan :=
  match s.brackets with
  | _ :: rest => { s with brackets := key :: rest }
  | [] => { s with outer := key }

/-- A scan without a key pending here.  A required key is refused. -/
def dropPending (s : Scan) : Option Scan :=
  match s.pending with
  | some key => if key.required then none else some (s.withPending none)
  | none => some s

/-- A scan in which a key may be pending at the cursor. -/
def savePending (s : Scan) : Option Scan :=
  if s.keyAllowed then do
    let required := !s.inFlow && s.indent == s.cursor.column
    let s ← s.dropPending
    let c := s.cursor
    return s.withPending (some ⟨s.tokens.size, required, c.index, c.line, c.column⟩)
  else some s

/-- Whether a key can no longer become complete: it has to fit on a line and must not be long. -/
def isStale (s : Scan) (key : PendingKey) : Bool :=
  key.line != s.cursor.line || decide (key.index + 1024 < s.cursor.index)

/-- A scan without the keys that can no longer become complete. -/
def dropStale (s : Scan) : Option Scan :=
  let keep (key : Option PendingKey) : Option PendingKey := key.filter fun k => !s.isStale k
  match s.outer with
  | some key =>
    if s.isStale key && key.required then none
    else some { s with outer := keep s.outer, brackets := s.brackets.map keep }
  | none => some { s with brackets := s.brackets.map keep }

/-- The end of all blocks that are indented further than a column. -/
def closeBlocks (s : Scan) (column : Int) : Scan :=
  if s.inFlow then s
  else
    let closed := s.blocks.takeWhile fun (b : Nat) => decide (column < (b : Int))
    { s with
      blocks := s.blocks.drop closed.length
      tokens := closed.foldl (fun out _ => out.push .blockEnd) s.tokens }

/-- A scan with a block opened at a column, unless the innermost block is there already. -/
def openBlock (s : Scan) (column : Nat) (t : Token) : Scan :=
  if s.indent < column then { s.emit t with blocks := column :: s.blocks } else s

/-- The cursor behind blanks, comments and empty lines, and whether a line ended. -/
def blanks : Nat → Cursor → Cursor × Bool
  | 0, c => (c, false)
  | fuel + 1, c =>
    let (_, c) := c.run (· == ' ')
    let c := if c.at? '#' then (c.run fun x => !isBreak x).2 else c
    match c.lineBreak? with
    | some _ => ((blanks fuel c.next).1, true)
    | none => (c, false)

/-- A mark between documents, which ends all blocks. -/
def documentMark (s : Scan) (t : Token) : Option Scan := do
  let s ← (s.closeBlocks (-1)).dropPending
  return ({ s with keyAllowed := false }.skip 3).emit t

/-- An opening bracket. -/
def openBracket (s : Scan) (t : Token) : Option Scan := do
  let s ← s.savePending
  return ({ s with brackets := none :: s.brackets, keyAllowed := true }.skip 1).emit t

/-- A closing bracket. -/
def closeBracket (s : Scan) (t : Token) : Option Scan :=
  match s.brackets with
  | _ :: rest => some (({ s with brackets := rest, keyAllowed := false }.skip 1).emit t)
  | [] => none

/-- A comma inside of brackets. -/
def comma (s : Scan) : Option Scan := do
  let s ← s.dropPending
  return ({ s with keyAllowed := true }.skip 1).emit .comma

/-- The sign of an item of a block sequence. -/
def entry (s : Scan) : Option Scan := do
  if !s.inFlow && !s.keyAllowed then none
  else
    let s := if s.inFlow then s else s.openBlock s.cursor.column .sequenceStart
    let s ← { s with keyAllowed := true }.dropPending
    return (s.skip 1).emit .entry

/-- The sign of a key. -/
def explicitKey (s : Scan) : Option Scan := do
  if !s.inFlow && !s.keyAllowed then none
  else
    let s := if s.inFlow then s else s.openBlock s.cursor.column .mappingStart
    let s ← { s with keyAllowed := !s.inFlow }.dropPending
    return (s.skip 1).emit .key

/-- A scan with a token inserted at a position. -/
def insert (s : Scan) (position : Nat) (t : Token) : Scan :=
  { s with tokens := s.tokens.insertIdxIfInBounds position t }

/-- The sign of a value, which makes a key of what is pending. -/
def value (s : Scan) : Option Scan := do
  match s.pending with
  | some key =>
    let s := (s.withPending none).insert key.position .key
    let s :=
      if !s.inFlow && s.indent < key.column then
        { s.insert key.position .mappingStart with blocks := key.column :: s.blocks }
      else s
    return ({ s with keyAllowed := false }.skip 1).emit .value
  | none =>
    if !s.inFlow && !s.keyAllowed then none
    else
      let s := if s.inFlow then s else s.openBlock s.cursor.column .mappingStart
      let s ← { s with keyAllowed := !s.inFlow }.dropPending
      return (s.skip 1).emit .value

/-- A quoted scalar. -/
def quoted (s : Scan) (quote : Char) : Option Scan := do
  let s ← s.savePending
  let (text, cursor) ← Scalar.quoted quote (s.cursor.rest.length + 1) s.cursor.next
  return { s with cursor, keyAllowed := false }.emit (.quoted (String.ofList text))

/-- A plain scalar. -/
def plain (s : Scan) : Option Scan := do
  let s ← s.savePending
  let fuel := s.cursor.rest.length + 1
  let (text, cursor, broke) := Scalar.plain s.inFlow (s.indent + 1) fuel s.cursor []
  return { s with cursor, keyAllowed := broke }.emit (.plain (String.ofList text))

/-- The characters that a plain scalar cannot begin with, unless a word follows some of them. -/
def indicators : List Char :=
  ['-', '?', ':', ',', '[', ']', '\x7b', '\x7d', '#', '&', '*', '!', '|', '>', '\x27', '"', '%',
    '@', '\x60']

/-- Whether a plain scalar begins at the cursor. -/
def startsPlain (s : Scan) (x : Char) : Bool :=
  (!isGap x && !isBreak x && !indicators.contains x) ||
    (!endsWord (s.cursor.peek 1) && (x == '-' || (!s.inFlow && (x == '?' || x == ':'))))

/-- The next token or tokens. -/
def token (s : Scan) (x : Char) : Option Scan :=
  let atStart := s.cursor.column == 0
  let word := endsWord (s.cursor.peek 1)
  if atStart && s.cursor.isMark '-' then s.documentMark .documentStart
  else if atStart && s.cursor.isMark '.' then s.documentMark .documentEnd
  else if x == '[' then s.openBracket .bracketOpen
  else if x == '\x7b' then s.openBracket .braceOpen
  else if x == ']' then s.closeBracket .bracketClose
  else if x == '\x7d' then s.closeBracket .braceClose
  else if x == ',' then s.comma
  else if x == '-' && word then s.entry
  else if x == '?' && (s.inFlow || word) then s.explicitKey
  else if x == ':' && (s.inFlow || word) then s.value
  else if x == '\x27' || x == '"' then s.quoted x
  else if s.startsPlain x then s.plain
  else none

/-- All tokens of the rest of a document. -/
def run : Nat → Scan → Option (Array Token)
  | 0, _ => none
  | fuel + 1, s => do
    let (cursor, broke) := blanks (s.cursor.rest.length + 1) s.cursor
    let s ← { s with cursor, keyAllowed := s.keyAllowed || (broke && !s.inFlow) }.dropStale
    let s := s.closeBlocks cursor.column
    match cursor.peek 0 with
    | some x => run fuel (← s.token x)
    | none =>
      let s ← (s.closeBlocks (-1)).dropPending
      return s.tokens

end Scan

/-- The tokens of a document, unless something in it cannot begin a token. -/
def Token.scan (text : String) : Option (List Token) :=
  let cs := unifyLines text.toList
  if cs.all isPrintable then
    let cs := match cs with
      | '\uFEFF' :: rest => rest
      | cs => cs
    ((Scan.start cs).run (cs.length + 1)).map Array.toList
  else none

end Projectivity.Yaml
