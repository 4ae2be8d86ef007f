import SigilExpr.Json.Token

/-!
# Reading JSON text

The grammatical half of reading JSON. A machine goes through the tokens once, with a stack of the
containers that are open and a note of what may come next; a text is JSON if the machine ends with
one value and nothing open. Containers may be nested `Reader.maxDepth` levels deep, and of two
fields with one key the later counts.
-/

namespace SigilExpr.Json

namespace Reader

/-- The number of containers that may be open at once. -/
def maxDepth : Nat := 127

/-- A container that is still open. -/
inductive Frame where
  /-- An array with the items read so far, the latest first. -/
  | items (read : List Json)
  /-- An object with the fields read so far, and the key whose value comes next. -/
  | fields (read : List (String × Json)) (key : String)

/-- What the machine waits for. -/
inductive Phase where
  /-- A value. -/
  | value
  /-- The first item of an array, or its end. -/
  | firstItem
  /-- The first key of an object, or its end. -/
  | firstKey
  /-- A key. -/
  | key
  /-- The colon after a key. -/
  | colon
  /-- A comma or the end of the innermost container. -/
  | separator
  /-- Nothing: the text is over. -/
  | finished (value : Json)

/-- The state of the machine. -/
structure State where
  /-- The open containers, the innermost first. -/
  stack : List Frame
  /-- What comes next. -/
  phase : Phase

/-- The state before the first token. -/
def start : State := ⟨[], .value⟩

/-- Takes a complete value into the innermost open container. -/
def accept (v : Json) : List Frame → State
  | [] => ⟨[], .finished v⟩
  | .items read :: outer => ⟨.items (v :: read) :: outer, .separator⟩
  | .fields read key :: outer => ⟨.fields (Fields.insert key v read) key :: outer, .separator⟩

/-- Opens a container, unless too many are open. -/
def opened (frame : Frame) (phase : Phase) (stack : List Frame) : Option State :=
  if stack.length < maxDepth then some ⟨frame :: stack, phase⟩ else none

/-- The start of a value. -/
def beginValue (stack : List Frame) : Token → Option State
  | .scalar v => some (accept v stack)
  | .string s => some (accept (.str s) stack)
  | .openItems => opened (.items []) .firstItem stack
  | .openFields => opened (.fields [] "") .firstKey stack
  | _ => none

/-- The end of the innermost container. -/
def close : Token → List Frame → Option State
  | .closeItems, .items read :: outer => some (accept (.arr read.reverse) outer)
  | .closeFields, .fields read _ :: outer => some (accept (.obj read) outer)
  | _, _ => none

/-- A key. -/
def beginField : Token → List Frame → Option State
  | .string key, .fields read _ :: outer => some ⟨.fields read key :: outer, .colon⟩
  | _, _ => none

/-- One token. -/
def step (state : State) (token : Token) : Option State :=
  match state.phase, token, state.stack with
  | .value, _, stack => beginValue stack token
  | .firstItem, .closeItems, stack => close token stack
  | .firstItem, _, stack => beginValue stack token
  | .firstKey, .closeFields, stack => close token stack
  | .firstKey, _, stack => beginField token stack
  | .key, _, stack => beginField token stack
  | .colon, .colon, stack => some ⟨stack, .value⟩
  | .separator, .comma, .items read :: outer => some ⟨.items read :: outer, .value⟩
  | .separator, .comma, .fields read key :: outer => some ⟨.fields read key :: outer, .key⟩
  | .separator, _, stack => close token stack
  | _, _, _ => none

/-- The value that tokens spell. -/
def value? (tokens : List Token) : Option Json := do
  let state ← tokens.foldlM step start
  match state.phase with
  | .finished v => some v
  | _ => none

end Reader

/-- The value that a text spells, if it is JSON. -/
def read? (text : String) : Option Json :=
  (Token.scan? text.toList).bind Reader.value?

end SigilExpr.Json
