import MessagePack.Proofs.Nesting
import MessagePack.Value

/-!
What a value is written as: its headers and payloads in order, or the first error met on the
way.
-/

namespace MessagePack

def Writer.Call.isFlush : Writer.Call → Bool
  | .flush => true
  | _ => false

namespace Value

def enclosed (options : TagOptions) (room : Room) (tag : Tag)
    (content : Room → Except Error Bytes) : Except Error Bytes := do
  let header ← Header.encode options tag
  let inner ← room.deeper
  let text ← content inner
  return header ++ text

def joined (first rest : Except Error Bytes) : Except Error Bytes := do
  let head ← first
  let tail ← rest
  return head ++ tail

mutual

def encoding (options : TagOptions) (room : Room) : Value → Except Error Bytes
  | .nil => Header.encode options .nil
  | .bool value => Header.encode options (.bool value)
  | .int value => Header.encode options (.int value)
  | .uint value => Header.encode options (.uint value)
  | .float bits => Header.encode options (.float bits)
  | .double bits => Header.encode options (.double bits)
  | .str text =>
      enclosed options room (.str (UInt32.ofNat (utf8 text).length)) fun _ => .ok (utf8 text)
  | .bin content =>
      enclosed options room (.bin (UInt32.ofNat content.length)) fun _ => .ok content
  | .ext type content =>
      enclosed options room (.ext type (UInt32.ofNat content.length)) fun _ => .ok content
  | .array items =>
      enclosed options room (.array (UInt32.ofNat items.length)) fun inner =>
        itemsEncoding options inner items
  | .map entries =>
      enclosed options room (.map (UInt32.ofNat entries.length)) fun inner =>
        entriesEncoding options inner entries

def itemsEncoding (options : TagOptions) (room : Room) : List Value → Except Error Bytes
  | [] => .ok []
  | item :: items => joined (encoding options room item) (itemsEncoding options room items)

def entriesEncoding (options : TagOptions) (room : Room) :
    List (Value × Value) → Except Error Bytes
  | [] => .ok []
  | (key, value) :: entries =>
      joined (encoding options room key)
        (joined (encoding options room value) (entriesEncoding options room entries))

end

mutual

/-- Every payload and every count has a header that can hold it. -/
def Fits : Value → Prop
  | .str text => (utf8 text).length < UInt32.size
  | .bin content => content.length < UInt32.size
  | .ext _ content => content.length < UInt32.size
  | .array items => items.length < UInt32.size ∧ FitsItems items
  | .map entries => entries.length < UInt32.size ∧ FitsEntries entries
  | _ => True

def FitsItems : List Value → Prop
  | [] => True
  | item :: items => Fits item ∧ FitsItems items

def FitsEntries : List (Value × Value) → Prop
  | [] => True
  | (key, value) :: entries => Fits key ∧ Fits value ∧ FitsEntries entries

end

/-! The calls that write a value. -/

/-- The calls that open a compound of `n` elements or pairs. -/
def Framing.opening (framing : Framing) (kind : Compound) (header : UInt32 → Tag) (n : Nat) :
    Writer.Call :=
  match framing with
  | .counted => .tag (header (count n))
  | .built => .beginBuild kind

def Framing.closing (framing : Framing) (kind : Compound) : Writer.Call :=
  match framing with
  | .counted => .finishCompound kind
  | .built => .completeBuild kind

mutual

/-- The calls may write the value, each array and map of it counted or, where builds are
allowed, built. -/
inductive Spelled (builds : Bool) : Value → List Writer.Call → Prop
  | nil : Spelled builds .nil [.tag .nil]
  | bool (value : Bool) : Spelled builds (.bool value) [.tag (.bool value)]
  | int (value : Int64) : Spelled builds (.int value) [.tag (.int value)]
  | uint (value : UInt64) : Spelled builds (.uint value) [.tag (.uint value)]
  | float (bits : UInt32) : Spelled builds (.float bits) [.tag (.float bits)]
  | double (bits : UInt64) : Spelled builds (.double bits) [.tag (.double bits)]
  | str (text : String) : Spelled builds (.str text) [.str text]
  | bin (content : Bytes) : Spelled builds (.bin content) [.bin content]
  | ext (type : Int8) (content : Bytes) : Spelled builds (.ext type content) [.ext type content]
  | array (framing : Framing) {items : List Value} {calls : List Writer.Call}
      (hframing : framing = .built → builds = true) (hitems : SpelledItems builds items calls) :
      Spelled builds (.array items)
        (framing.opening .array .array items.length :: calls ++ [framing.closing .array])
  | map (framing : Framing) {entries : List (Value × Value)} {calls : List Writer.Call}
      (hframing : framing = .built → builds = true)
      (hentries : SpelledEntries builds entries calls) :
      Spelled builds (.map entries)
        (framing.opening .map .map entries.length :: calls ++ [framing.closing .map])

inductive SpelledItems (builds : Bool) : List Value → List Writer.Call → Prop
  | nil : SpelledItems builds [] []
  | cons {item : Value} {items : List Value} {calls later : List Writer.Call}
      (hitem : Spelled builds item calls) (hitems : SpelledItems builds items later) :
      SpelledItems builds (item :: items) (calls ++ later)

inductive SpelledEntries (builds : Bool) : List (Value × Value) → List Writer.Call → Prop
  | nil : SpelledEntries builds [] []
  | cons {key value : Value} {entries : List (Value × Value)}
      {first second later : List Writer.Call} (hkey : Spelled builds key first)
      (hvalue : Spelled builds value second) (hentries : SpelledEntries builds entries later) :
      SpelledEntries builds ((key, value) :: entries) (first ++ (second ++ later))

end

end Value
end MessagePack
