import MessagePack.Header

/-!
Compounds whose count is not known when they are opened.

While a build is open everything written goes to a chain of pages. A build reserves a slot
for its header at the current length and counts the values written directly in it. Once the
outermost build is complete, `spliced` is the paged bytes with every header put in at its
place: slots are kept in the order of opening, so their offsets never decrease and an outer
header precedes an inner one at the same offset.
-/

namespace MessagePack

structure Build where
  kind : Compound
  /-- Values written at the build's own level. -/
  count : Nat := 0
  /-- Counted compounds opened in the build and not yet finished. -/
  nested : Nat := 0
  slot : Nat
  deriving DecidableEq

structure Slot where
  offset : Nat
  header : Bytes := []
  deriving DecidableEq, Inhabited

structure Builder where
  enabled : Bool
  pageSize : Nat
  options : TagOptions
  pages : Array (Array UInt8) := #[]
  length : Nat := 0
  /-- Open builds, innermost first. -/
  builds : List Build := []
  slots : Array Slot := #[]
  deriving DecidableEq

namespace Builder

/-- The largest page that can be asked for. -/
def maxPage : Nat := maxReserve

def isActive (builder : Builder) : Bool :=
  !builder.builds.isEmpty

def depth (builder : Builder) : Nat :=
  builder.builds.length

/-- Count a value, unless it belongs to a compound inside the innermost build. -/
def countValue (builder : Builder) : Builder :=
  match builder.builds with
  | top :: outer =>
      if top.nested = 0 then
        { builder with builds := { top with count := top.count + 1 } :: outer }
      else
        builder
  | [] => builder

def openCounted (builder : Builder) : Builder :=
  match builder.builds with
  | top :: outer => { builder with builds := { top with nested := top.nested + 1 } :: outer }
  | [] => builder

/-- A build is completed, never finished like a counted compound. -/
def closeCounted (builder : Builder) : Except Error Builder :=
  match builder.builds with
  | top :: outer =>
      if top.nested = 0 then
        .error (.usage .buildOutOfOrder)
      else
        .ok { builder with builds := { top with nested := top.nested - 1 } :: outer }
  | [] => .ok builder

def appendByte (byte : UInt8) (builder : Builder) : Except Error Builder :=
  let last := builder.pages.size - 1
  if builder.pages.back?.any (·.size ≠ builder.pageSize) then
    .ok { builder with
      pages := builder.pages.modify last (·.push byte)
      length := builder.length + 1 }
  else if maxPage < builder.pageSize then
    .error (.resource builder.pageSize)
  else
    .ok { builder with
      pages := builder.pages.push #[byte]
      length := builder.length + 1 }

def append : Bytes → Builder → Except Error Builder
  | [], builder => .ok builder
  | byte :: bytes, builder =>
      match builder.appendByte byte with
      | .ok builder => append bytes builder
      | .error error => .error error

def checkEnabled (builder : Builder) : Except Error Unit :=
  requireFeature builder.enabled .builder

/-- Open a build, itself a value of the enclosing level. -/
def begin (kind : Compound) (builder : Builder) : Builder :=
  let counted := builder.countValue
  { counted with
    builds := { kind, slot := counted.slots.size } :: counted.builds
    slots := counted.slots.push { offset := counted.length } }

def checkComplete (kind : Compound) (builder : Builder) : Except Error Unit := do
  builder.checkEnabled
  match builder.builds with
  | [] => throw (.usage .buildOutOfOrder)
  | top :: _ =>
      if top.kind ≠ kind then
        throw (.usage .buildOutOfOrder)
      else if top.nested ≠ 0 then
        throw (.usage (.unclosedCompounds top.nested))
      else if kind = .map ∧ top.count % 2 ≠ 0 then
        throw (.usage .danglingMapKey)

/-- The header of a build that holds `count` values. -/
def header (options : TagOptions) (kind : Compound) (count : Nat) : Except Error Bytes :=
  let units := if kind = .map then count / 2 else count
  if units < UInt32.size then
    let tag := if kind = .map then Tag.map else Tag.array
    Header.encode options (tag (UInt32.ofNat units))
  else
    .error (.tooBig units (UInt32.size - 1))

/-- Fill in the header of the innermost build and close it. -/
def complete (builder : Builder) : Except Error Builder :=
  match builder.builds with
  | [] => .error (.usage .buildOutOfOrder)
  | top :: outer =>
      match header builder.options top.kind top.count with
      | .error error => .error error
      | .ok header =>
          .ok { builder with
            builds := outer
            slots := builder.slots.modify top.slot fun slot => { slot with header } }

/-! Splicing. Pieces come out in the order in which they are written. -/

/-- One page that starts at `offset`, and the slots behind its end. -/
def splicePage (offset : Nat) (page : Bytes) : List Slot → List Bytes × List Slot
  | [] => ([page], [])
  | slot :: slots =>
      if slot.offset ≤ offset + page.length then
        let cut := slot.offset - offset
        let before := page.take cut
        let (pieces, rest) := splicePage (offset + before.length) (page.drop cut) slots
        (before :: slot.header :: pieces, rest)
      else
        ([page], slot :: slots)

def splicePages (offset : Nat) : List Bytes → List Slot → List Bytes
  | [], slots => slots.map Slot.header
  | page :: pages, slots =>
      let (pieces, rest) := splicePage offset page slots
      pieces ++ splicePages (offset + page.length) pages rest

def spliced (builder : Builder) : List Bytes :=
  splicePages 0 (builder.pages.toList.map Array.toList) builder.slots.toList

def clear (builder : Builder) : Builder :=
  { builder with pages := #[], length := 0, slots := #[] }

end Builder
end MessagePack
