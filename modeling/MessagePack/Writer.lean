import MessagePack.Nesting
import MessagePack.Writer.Builder
import MessagePack.Writer.Output

/-!
Incremental writing.

Values are written one tag at a time. A compound is written with its count declared, or
through a build that learns its count at the end. The first error sticks, and a writer that
has failed never touches its sink again.
-/

namespace MessagePack

structure Writer.State where
  output : Output
  nesting : Nesting
  builder : Builder
  options : TagOptions

abbrev Writer := Latch Writer.State

namespace Writer

def create (config : Config) (sink : Sink) : Except Error Writer := do
  config.validate
  requireFeature config.writer .writer
  return {
    state := {
      output := { sink, capacity := config.bufferSize }
      nesting := { enabled := config.writeTracking, limit := config.trackingLimit }
      builder := {
        enabled := config.builder
        pageSize := config.builderPageSize
        options := config.tagOptions }
      options := config.tagOptions } }

def sink (writer : Writer) : Sink :=
  writer.state.output.sink

def depth (writer : Writer) : Nat :=
  writer.state.nesting.depth

def buildDepth (writer : Writer) : Nat :=
  writer.state.builder.depth

namespace State

def track (operation : Nesting → Except Error Nesting) : Attempt State Unit :=
  .update State.nesting (fun nesting state => { state with nesting }) operation

def build (operation : Builder → Except Error Builder) : Attempt State Unit :=
  .update State.builder (fun builder state => { state with builder }) operation

def onOutput (attempt : Attempt Output Unit) : Attempt State Unit :=
  attempt.within State.output (fun output state => { state with output })

/-- Bytes go to the pages while a build is open. -/
def emit (bytes : Bytes) : Attempt State Unit := do
  if (← get).builder.isActive then
    build (Builder.append bytes)
  else
    onOutput (Output.write bytes)

def tag (tag : Tag) : Attempt State Unit := do
  let header ← Attempt.lift (Header.encode (← get).options tag)
  track Nesting.element
  track (Nesting.enterTag tag)
  build fun builder => .ok builder.countValue
  if tag.isCompound then
    build fun builder => .ok builder.openCounted
  emit header

/-- Payload bytes of the open str, bin or ext. -/
def bytes (payload : Bytes) : Attempt State Unit := do
  track (Nesting.bytes payload.length)
  emit payload

def finishCompound (kind : Compound) : Attempt State Unit := do
  build Builder.closeCounted
  track (Nesting.leave kind)

/-- Refuse a payload whose length no header can hold. -/
def payloadLength (payload : Bytes) : Attempt State UInt32 :=
  if payload.length < UInt32.size then
    pure (UInt32.ofNat payload.length)
  else
    throw (.tooBig payload.length (UInt32.size - 1))

/-- A whole value made of a header and its payload. -/
def payload (header : UInt32 → Tag) (kind : Compound) (content : Bytes) :
    Attempt State Unit := do
  let length ← payloadLength content
  tag (header length)
  bytes content
  finishCompound kind

def str (text : String) : Attempt State Unit :=
  payload .str .str (utf8 text)

def bin (content : Bytes) : Attempt State Unit :=
  payload .bin .bin content

def ext (type : Int8) (content : Bytes) : Attempt State Unit :=
  payload (.ext type) .ext content

/-- One value that is already encoded. -/
def object (encoded : Bytes) : Attempt State Unit := do
  track Nesting.element
  build fun builder => .ok builder.countValue
  emit encoded

def beginBuild (kind : Compound) : Attempt State Unit := do
  Attempt.lift (← get).builder.checkEnabled
  track Nesting.element
  track (Nesting.enterOpenEnded kind)
  build fun builder => .ok (builder.begin kind)

def writePieces : List Bytes → Attempt State Unit
  | [] => pure ()
  | piece :: pieces => do
      onOutput (Output.write piece)
      writePieces pieces

def completeBuild (kind : Compound) : Attempt State Unit := do
  Attempt.lift ((← get).builder.checkComplete kind)
  track (Nesting.leave kind)
  build Builder.complete
  if !(← get).builder.isActive then
    writePieces (← get).builder.spliced
    build fun builder => .ok builder.clear

/-- What an open build holds stays in its pages. -/
def flush : Attempt State Unit :=
  onOutput Output.flush

def finish : Attempt State Unit := do
  let state ← get
  if state.builder.isActive then
    throw (.usage (.pendingBuild state.builder.depth))
  Attempt.lift state.nesting.checkClosed
  flush

end State

inductive Call where
  | tag (tag : Tag)
  | bytes (payload : Bytes)
  | finishCompound (kind : Compound)
  | str (text : String)
  | bin (content : Bytes)
  | ext (type : Int8) (content : Bytes)
  | object (encoded : Bytes)
  | beginBuild (kind : Compound)
  | completeBuild (kind : Compound)
  | flush
  | finish

def State.perform : Call → Attempt State Unit
  | .tag value => tag value
  | .bytes payload => bytes payload
  | .finishCompound kind => finishCompound kind
  | .str text => str text
  | .bin content => bin content
  | .ext type content => ext type content
  | .object encoded => object encoded
  | .beginBuild kind => beginBuild kind
  | .completeBuild kind => completeBuild kind
  | .flush => flush
  | .finish => finish

def perform (call : Call) : Attempt Writer Unit :=
  Latch.call (State.perform call)

/-- The bytes that `write` and a final `finish` leave in a sink that never fails. -/
def encode (config : Config) (write : Attempt State Unit) : Except Error Bytes := do
  let writer ← create config {}
  let (result, after) := Latch.call (do write; State.finish) writer
  result
  return (sink after).taken.toList

end Writer
end MessagePack
