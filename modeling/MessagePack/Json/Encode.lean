import MessagePack.Json
import MessagePack.Value

/-!
Writing JSON documents as messages.
-/

namespace MessagePack.Json

def doubleTag (mode : FloatMode) (bits : UInt64) : Tag :=
  match mode with
  | .native => .double bits
  | .raw => .rawDouble bits

mutual

def write (framing : Value.Framing) (mode : FloatMode) : Json → Attempt Writer.State Unit
  | .null => Writer.State.tag .nil
  | .bool value => Writer.State.tag (.bool value)
  | .unsigned value => Writer.State.tag (.uint value)
  | .negative value => Writer.State.tag (.int value)
  | .double bits => Writer.State.tag (doubleTag mode bits)
  | .string text => Writer.State.str text
  | .array items => do
      framing.begin .array .array items.length
      writeItems framing mode items
      framing.finish .array
  | .object members => do
      framing.begin .map .map members.length
      writeMembers framing mode members
      framing.finish .map

def writeItems (framing : Value.Framing) (mode : FloatMode) :
    List Json → Attempt Writer.State Unit
  | [] => pure ()
  | item :: items => do
      write framing mode item
      writeItems framing mode items

def writeMembers (framing : Value.Framing) (mode : FloatMode) :
    List (String × Json) → Attempt Writer.State Unit
  | [] => pure ()
  | (key, value) :: members => do
      Writer.State.str key
      write framing mode value
      writeMembers framing mode members

end

end MessagePack.Json
