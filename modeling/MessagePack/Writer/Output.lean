import MessagePack.Sink

/-!
A buffer in front of a sink.

At most `capacity` bytes wait in the buffer. Bytes that do not fit push out what waits;
a piece as large as the buffer goes to the sink directly.
-/

namespace MessagePack

structure Output where
  sink : Sink
  capacity : Nat
  waiting : Array UInt8 := #[]

namespace Output

def deliver (bytes : Bytes) : Attempt Output Unit := fun output =>
  match output.sink.writeAll bytes with
  | (.ok (), sink) => (.ok (), { output with sink })
  | (.error failure, sink) => (.error (.io failure), { output with sink })

def release : Attempt Output Unit := do
  deliver (← get).waiting.toList
  modify fun output => { output with waiting := #[] }

def write (bytes : Bytes) : Attempt Output Unit := do
  let output ← get
  if output.capacity < output.waiting.size + bytes.length then
    release
  if output.capacity ≤ bytes.length then
    deliver bytes
  else
    modify fun output => { output with waiting := output.waiting ++ bytes }

def flush : Attempt Output Unit := do
  release
  let output ← get
  match output.sink.flush with
  | (.ok (), sink) => set { output with sink }
  | (.error failure, sink) =>
      set { output with sink }
      throw (.io failure)

end Output
end MessagePack
