import MessagePack.Command.Run

/-!
The command line.
-/

namespace MessagePack.Command

/-- The closest fault to what the system reports, by its error number. -/
def faultOf (error : IO.Error) : PathFault :=
  match error with
  | .inappropriateType _ 21 _ => .isFolder
  | .inappropriateType _ _ _ => .notFolder
  | .invalidArgument _ _ _ => .tooLong
  | _ => .noSuchFile

def lookUp (path : String) : IO Place := do
  let keeps : Bool := Path.location path ≠ .nullDevice
  try
    let content ← IO.FS.readBinFile path
    return { content := .ok content.toList, writable := .ok (), keeps }
  catch error =>
    return { content := .error (faultOf error), writable := .ok (), keeps }

def paths (command : Command) : List String :=
  match command.task with
  | .inspect file _ | .validate file | .decode file none | .stats file => [file]
  | .encode file output _ | .decode file (some output) => [file, output]

def nowhere : Place :=
  { content := .error .noSuchFile, writable := .error .noSuchFile }

/-- Run a command on what its paths lead to. One whose output turns out not to be writable is
run again in the knowledge of that. -/
def perform (command : Command) : IO Outcome := do
  let places ← (paths command).mapM fun path => return (path, ← lookUp path)
  let outcome := command.run fun path => (places.lookup path).getD nowhere
  match outcome.written? with
  | none => return outcome
  | some (output, content) =>
      try
        IO.FS.writeBinFile output content.toByteArray
        return outcome
      catch error =>
        return command.run fun path =>
          let place := (places.lookup path).getD nowhere
          if path = output then { place with writable := .error (faultOf error) } else place

end MessagePack.Command

def main (words : List String) : IO UInt32 := do
  match MessagePack.Command.ofWords? words with
  | none =>
      IO.eprintln "usage: messagepack inspect|validate|encode|decode|stats FILE [OPTION...]"
      return 2
  | some command =>
      let outcome ← MessagePack.Command.perform command
      IO.print outcome.text
      IO.eprint outcome.complaint
      return UInt32.ofNat outcome.code
