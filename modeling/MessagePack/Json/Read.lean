import MessagePack.Json.Token

/-!
Reading JSON text.

Tokens are taken one at a time. What is known so far is kept in a stack of containers that are
still open, so a container may hold any number of values; only nesting is limited.
-/

namespace MessagePack.Json

/-- A container that waits for the value after those it has. -/
inductive Frame where
  | array (items : Array Json)
  | object (members : Array (String × Json)) (key : String)

/-- What the next token has to be, and the containers around it, innermost first. -/
inductive Reading where
  | beforeValue (frames : List Frame)
  /-- The array may also end. -/
  | beforeFirstItem (frames : List Frame)
  /-- The object may also end. -/
  | beforeFirstKey (frames : List Frame)
  | beforeKey (members : Array (String × Json)) (frames : List Frame)
  | beforeColon (members : Array (String × Json)) (key : String) (frames : List Frame)
  /-- There is a comma or the end of the container. -/
  | afterValue (value : Json) (frames : List Frame)

namespace Reading

/-- Containers that may be open at the same time. -/
def maxNesting : Nat := 127

def startValue (frames : List Frame) : Token → Option Reading
  | .scalar value => some (.afterValue value frames)
  | .openArray => if frames.length < maxNesting then some (.beforeFirstItem frames) else none
  | .openObject => if frames.length < maxNesting then some (.beforeFirstKey frames) else none
  | _ => none

def next : Reading → Token → Option Reading
  | .beforeValue frames, token => startValue frames token
  | .beforeFirstItem frames, .closeArray => some (.afterValue (.array []) frames)
  | .beforeFirstItem frames, token => startValue (.array #[] :: frames) token
  | .beforeFirstKey frames, .closeObject => some (.afterValue (.object []) frames)
  | .beforeFirstKey frames, .scalar (.string key) => some (.beforeColon #[] key frames)
  | .beforeKey members frames, .scalar (.string key) => some (.beforeColon members key frames)
  | .beforeColon members key frames, .colon =>
      some (.beforeValue (.object members key :: frames))
  | .afterValue value (.array items :: frames), .comma =>
      some (.beforeValue (.array (items.push value) :: frames))
  | .afterValue value (.array items :: frames), .closeArray =>
      some (.afterValue (.array (items.push value).toList) frames)
  | .afterValue value (.object members key :: frames), .comma =>
      some (.beforeKey (members.push (key, value)) frames)
  | .afterValue value (.object members key :: frames), .closeObject =>
      some (.afterValue (ofMembers (members.push (key, value)).toList) frames)
  | _, _ => none

end Reading

def ofText? (text : String) : Option Json := do
  match ← (← Token.ofText? text).foldlM Reading.next (.beforeValue []) with
  | .afterValue document [] => some document
  | _ => none

end MessagePack.Json
