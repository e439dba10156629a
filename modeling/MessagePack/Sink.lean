import MessagePack.Latch

/-!
Byte sinks that may accept only a part of what they are given, and fail.

`write` is one call on the sink; `writeAll` repeats it until everything is taken, after
interruptions too, and takes a call that accepts nothing for a failure.
-/

namespace MessagePack

/-- What may come of a single call. -/
inductive Sink.Reply where
  /-- A write takes this many bytes at most; a flush is done. -/
  | takes (most : Nat)
  | fails (failure : IoFailure)
  deriving DecidableEq

structure Sink where
  /-- The most bytes the sink will ever take. -/
  limit? : Option Nat := none
  /-- The most bytes a single call takes. -/
  maxWrite? : Option Nat := none
  /-- Calls that are interrupted before any succeeds. -/
  interrupts : Nat := 0
  /-- What a call beyond the limit fails with; without it the call takes nothing. -/
  refusal? : Option IoFailure := none
  flushFailure? : Option IoFailure := none
  /-- What comes of the first calls, one for each, whatever the rest says. -/
  replies : List Sink.Reply := []
  taken : Array UInt8 := #[]
  writes : Nat := 0
  flushes : Nat := 0
  deriving DecidableEq

namespace Sink

def interruption : IoFailure :=
  { kind := .interrupted, text := "operation interrupted" }

def nothingTaken : IoFailure :=
  { kind := .writeZero, text := "failed to write whole buffer" }

/-- The number of bytes a call may take, or why it takes none. -/
def allowance (length : Nat) (sink : Sink) : Except IoFailure Nat :=
  let offered := min length (sink.maxWrite?.getD length)
  match sink.limit? with
  | none => .ok offered
  | some limit =>
      if sink.taken.size + offered ≤ limit then
        .ok offered
      else
        match sink.refusal? with
        | some failure => .error failure
        | none => .ok 0

/-- One call; answers how many leading bytes were taken. -/
def write (bytes : Bytes) (sink : Sink) : Except IoFailure Nat × Sink :=
  let sink := { sink with writes := sink.writes + 1 }
  match sink.replies, sink.interrupts with
  | .takes most :: replies, _ =>
      let count := min bytes.length most
      (.ok count, { sink with replies, taken := sink.taken ++ bytes.take count })
  | .fails failure :: replies, _ => (.error failure, { sink with replies })
  | [], interrupts + 1 => (.error interruption, { sink with interrupts })
  | [], 0 =>
      match sink.allowance bytes.length with
      | .error failure => (.error failure, sink)
      | .ok count => (.ok count, { sink with taken := sink.taken ++ bytes.take count })

/-- Calls that may still be interrupted. -/
def patience (sink : Sink) : Nat :=
  sink.replies.length + sink.interrupts

theorem write_patience (bytes : Bytes) (sink : Sink) :
    (sink.write bytes).2.patience = sink.patience - 1 := by
  unfold write
  simp only [patience]
  split
  · next hreplies => simp [hreplies, Nat.add_right_comm]
  · next hreplies => simp [hreplies, Nat.add_right_comm]
  · next hreplies hinterrupts => simp [hreplies, hinterrupts]
  · next hreplies hinterrupts => split <;> simp [hreplies, hinterrupts]

/-- Whether a call that has failed so is made again. -/
def retries (failure : IoFailure) (sink : Sink) : Prop :=
  failure.kind = .interrupted ∧ 0 < sink.patience

instance (failure : IoFailure) (sink : Sink) : Decidable (sink.retries failure) :=
  inferInstanceAs (Decidable (_ ∧ _))

/-- Repeated calls. No call is made for no bytes. -/
def writeAll (bytes : Bytes) (sink : Sink) : Except IoFailure Unit × Sink :=
  if bytes = [] then
    (.ok (), sink)
  else
    match hwrite : sink.write bytes with
    | (.ok 0, after) => (.error nothingTaken, after)
    | (.ok (count + 1), after) => writeAll (bytes.drop (count + 1)) after
    | (.error failure, after) =>
        if sink.retries failure then
          writeAll bytes after
        else
          (.error failure, after)
termination_by (sink.patience, bytes.length)
decreasing_by
  · have hpatience := write_patience bytes sink
    rw [hwrite] at hpatience
    have hlength : 0 < bytes.length := List.length_pos_iff.mpr ‹_›
    simp only at hpatience
    rcases Nat.eq_zero_or_pos sink.patience with hzero | hpos
    · rw [hpatience, hzero]
      exact Prod.Lex.right _ (by simp only [List.length_drop]; omega)
    · exact Prod.Lex.left _ _ (by omega)
  · next hretries =>
    have hpatience := write_patience bytes sink
    have hpos := hretries.2
    rw [hwrite] at hpatience
    simp only at hpatience
    exact Prod.Lex.left _ _ (by omega)

def flush (sink : Sink) : Except IoFailure Unit × Sink :=
  let sink := { sink with flushes := sink.flushes + 1 }
  match sink.replies, sink.flushFailure? with
  | .takes _ :: replies, _ => (.ok (), { sink with replies })
  | .fails failure :: replies, _ => (.error failure, { sink with replies })
  | [], some failure => (.error failure, sink)
  | [], none => (.ok (), sink)

end Sink
end MessagePack
