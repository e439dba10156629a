import MessagePack.Command.Folder
import MessagePack.Error

/-!
What a command comes to.
-/

namespace MessagePack.Command

inductive Failure where
  | unreadable (path : String) (fault : PathFault)
  | notText (path : String)
  | notJson (path : String)
  | notMessages (path : String)
  | notWritable (path : String) (fault : PathFault)
  | configuration (error : Error)
  /-- The message with this number, counted from zero, cannot be read. -/
  | badMessage (index : Nat) (path : String) (error : Error)
  /-- A message cannot be put into its other form. -/
  | conversion (error : Error)
  deriving DecidableEq

def Failure.message : Failure → String
  | .unreadable path fault => s!"cannot read {path}: {fault.message}"
  | .notText path => s!"cannot read {path}: stream did not contain valid UTF-8"
  | .notJson path => s!"{path} is not valid JSON"
  | .notMessages path => s!"{path} is not valid MessagePack"
  | .notWritable path fault => s!"cannot create {path}: {fault.message}"
  | .configuration error => s!"invalid configuration: {error.message}"
  | .badMessage index path error => s!"message {index} of {path}: {error.message}"
  | .conversion error => error.message

structure Outcome where
  text : String := ""
  failure? : Option Failure := none
  /-- The file that was written, and all it holds now. -/
  written? : Option (String × Bytes) := none
  deriving DecidableEq

namespace Outcome

def failed (failure : Failure) : Outcome :=
  { failure? := some failure }

def code (outcome : Outcome) : Nat :=
  if outcome.failure?.isSome then 1 else 0

def complaint (outcome : Outcome) : String :=
  match outcome.failure? with
  | some failure => s!"error: {failure.message}\n"
  | none => ""

def ofExcept : Except Failure Outcome → Outcome
  | .ok outcome => outcome
  | .error failure => failed failure

end Outcome
end MessagePack.Command
