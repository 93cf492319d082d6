import Projectivity.Yaml.Plain
import Projectivity.Yaml.Token

/-!
# Documents

The value that a document stands for.  A text holds at most one document, and the
empty text stands for null.
-/

set_option autoImplicit false

namespace Projectivity.Yaml

/-- Whether a value can be a key. -/
def canBeKey : Value → Bool
  | .list _ | .record _ => false
  | _ => true

/-- A record with a further entry, unless its key cannot be one. -/
def addEntry (entries : List (Value × Value)) (key value : Value) :
    Option (List (Value × Value)) :=
  if canBeKey key then some (Value.insert entries key value) else none

/-- Whether the next token is one of the given ones. -/
def startsWith (tokens : List Token) (choices : List Token) : Bool :=
  match tokens with
  | t :: _ => choices.contains t
  | [] => false

/-- The tokens between brackets from the next item on, which stands behind a comma unless it is
the first. -/
def behindComma (first : Bool) (tokens : List Token) : Option (List Token) :=
  if first then some tokens
  else match tokens with
    | .comma :: rest => some rest
    | _ => none

mutual

/-- A value.  The items of a sequence that is the value of a key need not be indented. -/
def node (bare : Bool) : Nat → List Token → Option (Value × List Token)
  | 0, _ => none
  | fuel + 1, tokens =>
    match tokens with
    | .plain s :: rest =>
      if Plain.reserved.contains s then none else some (Plain.value s, rest)
    | .quoted s :: rest => some (.text s, rest)
    | .bracketOpen :: rest => (flowItems fuel true [] rest).map fun (v, r) => (.list v, r)
    | .braceOpen :: rest => (flowEntries fuel true [] rest).map fun (v, r) => (.record v, r)
    | .sequenceStart :: rest => (items fuel [] rest).map fun (v, r) => (.list v, r)
    | .mappingStart :: rest => (entries fuel [] rest).map fun (v, r) => (.record v, r)
    | .entry :: _ =>
      if bare then (bareItems fuel [] tokens).map fun (v, r) => (.list v, r) else none
    | _ => none

/-- A value that may be missing in front of certain tokens; the end of the text is none of them. -/
def nodeBefore (bare : Bool) (ends : List Token) : Nat → List Token → Option (Value × List Token)
  | 0, _ => none
  | fuel + 1, tokens =>
    if startsWith tokens ends then some (.null, tokens) else node bare fuel tokens

/-- The value of a key between brackets, which is null without the sign of a value. -/
def flowValue (ends : List Token) : Nat → List Token → Option (Value × List Token)
  | 0, _ => none
  | fuel + 1, tokens =>
    match tokens with
    | .value :: rest => nodeBefore false ends fuel rest
    | _ => some (.null, tokens)

/-- The items of a block sequence up to its end. -/
def items : Nat → List Value → List Token → Option (List Value × List Token)
  | 0, _, _ => none
  | fuel + 1, found, tokens =>
    match tokens with
    | .entry :: rest => do
      let (v, rest) ← nodeBefore false [.entry, .blockEnd] fuel rest
      items fuel (found ++ [v]) rest
    | .blockEnd :: rest => some (found, rest)
    | _ => none

/-- The items of a sequence that is not indented. -/
def bareItems : Nat → List Value → List Token → Option (List Value × List Token)
  | 0, _, _ => none
  | fuel + 1, found, tokens =>
    match tokens with
    | .entry :: rest => do
      let (v, rest) ← nodeBefore false [.entry, .key, .value, .blockEnd] fuel rest
      bareItems fuel (found ++ [v]) rest
    | _ => some (found, tokens)

/-- The entries of a block mapping up to its end. -/
def entries : Nat → List (Value × Value) → List Token → Option (List (Value × Value) × List Token)
  | 0, _, _ => none
  | fuel + 1, found, tokens =>
    match tokens with
    | .key :: rest => do
      let (k, rest) ← nodeBefore true [.key, .value, .blockEnd] fuel rest
      match rest with
      | .value :: rest =>
        let (v, rest) ← nodeBefore true [.key, .value, .blockEnd] fuel rest
        entries fuel (← addEntry found k v) rest
      | _ => entries fuel (← addEntry found k .null) rest
    | .blockEnd :: rest => some (found, rest)
    | _ => none

/-- The items between brackets, each but the first behind a comma. -/
def flowItems : Nat → Bool → List Value → List Token → Option (List Value × List Token)
  | 0, _, _, _ => none
  | fuel + 1, first, found, tokens =>
    match tokens with
    | .bracketClose :: rest => some (found, rest)
    | _ => do
      let tokens ← behindComma first tokens
      match tokens with
      | .bracketClose :: rest => return (found, rest)
      | .key :: rest =>
        let (k, rest) ← nodeBefore false [.value, .comma, .bracketClose] fuel rest
        let (v, rest) ← flowValue [.comma, .bracketClose] fuel rest
        let single ← addEntry [] k v
        flowItems fuel false (found ++ [.record single]) rest
      | _ =>
        let (v, rest) ← node false fuel tokens
        flowItems fuel false (found ++ [v]) rest

/-- The entries between braces, each but the first behind a comma. -/
def flowEntries : Nat → Bool → List (Value × Value) → List Token →
    Option (List (Value × Value) × List Token)
  | 0, _, _, _ => none
  | fuel + 1, first, found, tokens =>
    match tokens with
    | .braceClose :: rest => some (found, rest)
    | _ => do
      let tokens ← behindComma first tokens
      match tokens with
      | .braceClose :: rest => return (found, rest)
      | .key :: rest =>
        let (k, rest) ← nodeBefore false [.value, .comma, .braceClose] fuel rest
        let (v, rest) ← flowValue [.comma, .braceClose] fuel rest
        flowEntries fuel false (← addEntry found k v) rest
      | _ =>
        let (k, rest) ← node false fuel tokens
        flowEntries fuel false (← addEntry found k .null) rest

end

/-- The value of a list of tokens that is a single document. -/
def document (tokens : List Token) : Option Value := do
  let fuel := 8 * tokens.length + 16
  let root : Option (Value × List Token) := match tokens with
    | [] => some (.null, [])
    | .documentStart :: rest =>
      if rest.isEmpty then some (.null, [])
      else nodeBefore false [.documentStart, .documentEnd] fuel rest
    | tokens => node false fuel tokens
  let (v, rest) ← root
  if (rest.dropWhile (· == .documentEnd)).isEmpty then return v else none

/-- The value that a text stands for, unless the text is not a single well-formed document. -/
def read? (text : String) : Option Value := do
  let tokens ← Token.scan text
  document tokens

end Projectivity.Yaml
