import MessagePack.Config

/-!
Compound nesting checks shared by readers and writers.

Entering a compound pushes a frame, every element or payload byte is charged to the
innermost frame, and a frame is left once nothing is owed. At depth zero any number of
elements is accepted. A disabled `Nesting` accepts everything and stays empty.
-/

namespace MessagePack

/-- One open compound; an open-ended one owes nothing and accepts any number of elements. -/
structure Frame where
  kind : Compound
  remaining : Nat
  openEnded : Bool := false
  deriving DecidableEq

/-- Open compounds, innermost first. -/
structure Nesting where
  frames : List Frame := []
  enabled : Bool := true
  limit : Option Nat := none
  deriving DecidableEq

namespace Nesting

def depth (nesting : Nesting) : Nat :=
  nesting.frames.length

def remaining? (nesting : Nesting) : Option Nat :=
  nesting.frames.head?.map Frame.remaining

def push (frame : Frame) (nesting : Nesting) : Except Error Nesting :=
  if !nesting.enabled then
    .ok nesting
  else
    match nesting.limit with
    | some limit =>
        if limit ≤ nesting.depth then
          .error (.tooDeep (nesting.depth + 1) limit)
        else
          .ok { nesting with frames := frame :: nesting.frames }
    | none => .ok { nesting with frames := frame :: nesting.frames }

def enter (kind : Compound) (count : Nat) (nesting : Nesting) : Except Error Nesting :=
  nesting.push { kind, remaining := count }

def enterOpenEnded (kind : Compound) (nesting : Nesting) : Except Error Nesting :=
  nesting.push { kind, remaining := 0, openEnded := true }

/-- Scalars enter nothing. -/
def enterTag (tag : Tag) (nesting : Nesting) : Except Error Nesting :=
  match tag.opens? with
  | some (kind, count) => nesting.enter kind count
  | none => .ok nesting

/-- Charge one element to the innermost compound. -/
def element (nesting : Nesting) : Except Error Nesting :=
  if !nesting.enabled then
    .ok nesting
  else
    match nesting.frames with
    | [] => .ok nesting
    | top :: outer =>
        if top.kind.holdsBytes then
          .error (.usage (.unfinishedBytes top.kind top.remaining))
        else if top.openEnded then
          .ok nesting
        else if top.remaining = 0 then
          .error (.usage (.tooManyElements top.kind))
        else
          .ok { nesting with frames := { top with remaining := top.remaining - 1 } :: outer }

/-- Charge `n` payload bytes to the innermost compound. -/
def bytes (n : Nat) (nesting : Nesting) : Except Error Nesting :=
  if !nesting.enabled then
    .ok nesting
  else
    match nesting.frames with
    | [] => .error (.usage (.bytesOverflow n 0))
    | top :: outer =>
        if !top.kind.holdsBytes then
          .error (.usage (.bytesOverflow n 0))
        else if top.remaining < n then
          .error (.usage (.bytesOverflow n top.remaining))
        else
          .ok { nesting with frames := { top with remaining := top.remaining - n } :: outer }

def leave (kind : Compound) (nesting : Nesting) : Except Error Nesting :=
  if !nesting.enabled then
    .ok nesting
  else
    match nesting.frames with
    | [] => .error (.usage .nothingOpen)
    | top :: outer =>
        if top.kind ≠ kind then
          .error (.usage (.kindMismatch top.kind kind))
        else if top.remaining ≠ 0 then
          .error (.usage (.prematureClose kind top.remaining))
        else
          .ok { nesting with frames := outer }

def checkClosed (nesting : Nesting) : Except Error Unit :=
  match nesting.frames with
  | [] => .ok ()
  | _ :: _ => .error (.usage (.unclosedCompounds nesting.depth))

/-- What happens to the compounds of a run, one operation at a time. -/
inductive Event where
  | enter (kind : Compound) (count : Nat)
  | enterOpenEnded (kind : Compound)
  | element
  | bytes (n : Nat)
  | leave (kind : Compound)
  deriving DecidableEq

def apply : Event → Nesting → Except Error Nesting
  | .enter kind count => enter kind count
  | .enterOpenEnded kind => enterOpenEnded kind
  | .element => element
  | .bytes n => bytes n
  | .leave kind => leave kind

end Nesting
end MessagePack
