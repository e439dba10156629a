import MessagePack.Command
import MessagePack.Command.Outcome
import MessagePack.Command.Statistics
import MessagePack.Json.Encode
import MessagePack.Json.OfTree
import MessagePack.Json.Read
import MessagePack.Json.Render
import MessagePack.Tree.Stream

/-!
Running commands.

A command sees the world through what its paths lead to. It reads a file message by message,
so that what comes before a faulty message is still dealt with.
-/

namespace MessagePack.Command

/-- What reading at the end of a path gives. A folder is only found out when it is read. -/
def sourceAt (path : String) (place : Place) : Except Failure Source :=
  match place.content with
  | .ok content => .ok { deliveries := [.chunk content] }
  | .error .isFolder =>
      .ok { deliveries :=
        [.failure { kind := .isADirectory, text := PathFault.isFolder.message }] }
  | .error fault => .error (.unreadable path fault)

def openMessages (format : Format) (path : String) (place : Place) :
    Except Failure Stream := do
  let source ← sourceAt path place
  (Stream.create format.config source).mapError .configuration

/-- The trees in front of the first message that fails, and how it fails. -/
def readMessages (path : String) (messages : Stream) : List Tree × Option Failure :=
  let (trees, error?) := messages.collect #[]
  (trees, error?.map (.badMessage trees.length path))

def requireWritable (path : String) (place : Place) : Except Failure Unit :=
  place.writable.mapError (.notWritable path)

/-! Showing and checking messages. -/

def showMessage (layout : Tree.Layout) (tree : Tree) (index : Nat) : String :=
  s!"Message {index} ({tree.size} bytes, {tree.nodeCount} nodes, depth {tree.depth})\n" ++
    tree.render layout tree.root ++ "\n"

def inspect (format : Format) (layout : Tree.Layout) (file : String) (place : Place) :
    Except Failure Outcome := do
  let messages ← openMessages format file place
  let (trees, failure?) := readMessages file messages
  return {
    text := String.join ((trees.zipIdx).map fun (tree, index) => showMessage layout tree index)
    failure? }

def validate (format : Format) (file : String) (place : Place) : Except Failure Outcome := do
  let messages ← openMessages format file place
  let (trees, error?) := messages.collect #[]
  let depth := trees.foldl (fun depth tree => max depth tree.depth) 0
  let bytes : Nat := trees.foldl (fun bytes tree => bytes + tree.size) 0
  let plural := if bytes = 1 then "" else "s"
  match error? with
  | some error =>
      return {
        text := s!"✗ Error in message {trees.length}: {error.message}\n"
        failure? := some (.notMessages file) }
  | none =>
      return {
        text := s!"✓ Messages: {trees.length} parsed successfully ({bytes} byte{plural})\n" ++
          s!"✓ Depth: at most {depth}\n" }

def stats (format : Format) (file : String) (place : Place) : Except Failure Outcome := do
  let messages ← openMessages format file place
  match readMessages file messages with
  | (_, some failure) => throw failure
  | (trees, none) =>
      let size := (place.content.toOption.getD []).length
      return { text := (Statistics.ofTrees trees).report file size }

/-! JSON. -/

/-- The documents of the trees up to the first that has none. -/
def documents (text : String) : List Tree → String × Option Failure
  | [] => (text, none)
  | tree :: trees =>
      match Json.ofTree tree with
      | .error error => (text, some (.conversion error))
      | .ok document => documents (text ++ document.render ++ "\n") trees

/-- A file that is also the output has lost its content when it is read. -/
def decode (format : Format) (file : String) (output? : Option String)
    (look : String → Place) : Except Failure Outcome := do
  let place := look file
  let emptied := output?.any (Path.same file) && place.content.isOk
  let messages ← openMessages format file
    (if emptied then { place with content := .ok [] } else place)
  let (trees, readFailure?) := readMessages file messages
  let (text, failure?) := documents "" trees
  let failure? := failure? <|> readFailure?
  match output? with
  | none => return { text, failure? }
  | some output =>
      requireWritable output (look output)
      return { failure?, written? := some (output, utf8 text) }

def readDocument (file : String) (place : Place) : Except Failure Json := do
  let content ← place.content.mapError (.unreadable file)
  match ofUtf8? content with
  | none => throw (.notText file)
  | some text =>
      match Json.ofText? text with
      | none => throw (.notJson file)
      | some document => return document

/-- Whatever the writer has put out stays in the file, also when it fails. -/
def encode (format : Format) (framing : Value.Framing) (input output : String)
    (look : String → Place) : Except Failure Outcome := do
  let document ← readDocument input (look input)
  let place := look output
  requireWritable output place
  let writer ← (Writer.create format.config {}).mapError .configuration
  let (result, after) :=
    Latch.call (do document.write framing format.float; Writer.State.finish) writer
  let content := (Writer.sink after).taken.toList
  let written? := some (output, content)
  match result with
  | .error error => return { failure? := some (.conversion error), written? }
  | .ok () =>
      let size := if place.keeps then content.length else 0
      return { text := s!"Wrote {output} ({size} bytes)\n", written? }

def run (command : Command) (look : String → Place) : Outcome :=
  let format := command.format
  Outcome.ofExcept <|
    match command.task with
    | .inspect file layout => inspect format layout file (look file)
    | .validate file => validate format file (look file)
    | .encode input output framing => encode format framing input output look
    | .decode file output? => decode format file output? look
    | .stats file => stats format file (look file)

end MessagePack.Command
