import MessagePack.Header

/-!
Where a message ends.

A scan keeps the position it has reached and the number of elements still owed; it neither
nests nor stores anything else. Only whole elements are passed, so that a scan can be
resumed on a longer buffer with the same beginning.
-/

namespace MessagePack

structure Scan where
  position : Nat := 0
  owed : Nat := 1
  deriving DecidableEq

namespace Scan

/-- Scan on with `rest`, the bytes behind the position. Nothing is found while the message
is incomplete. -/
def advance (options : TagOptions) (rest : Bytes) (scan : Scan) :
    Except Error (Option Nat) × Scan :=
  match scan.owed with
  | 0 => (.ok (some scan.position), scan)
  | owed + 1 =>
      match _hdecode : Header.decode options rest with
      | .error (.truncated _ _) => (.ok none, scan)
      | .error error => (.error error, scan)
      | .ok (tag, size) =>
          let body := rest.drop size
          match tag.payloadLength? with
          | some length =>
              if hasAtLeast length body then
                advance options (body.drop length)
                  { position := scan.position + size + length, owed }
              else
                (.ok none, scan)
          | none =>
              advance options body
                { position := scan.position + size, owed := owed + tag.childCount?.getD 0 }
termination_by rest.length
decreasing_by
  all_goals
    have := Header.decode_size_pos _hdecode
    simp only [List.length_drop]
    omega

def resume (options : TagOptions) (buffer : Bytes) (scan : Scan) :
    Except Error (Option Nat) × Scan :=
  advance options (buffer.drop scan.position) scan

end Scan

/-- The length of the message at the start of a buffer, if it is complete. -/
def messageLength (options : TagOptions) (buffer : Bytes) : Except Error (Option Nat) :=
  (Scan.resume options buffer {}).1

end MessagePack
