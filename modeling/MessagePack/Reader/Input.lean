import MessagePack.Source

/-!
Where a reader takes its bytes from.

`ByteInput` is what reading needs: a look ahead over a header, and bytes taken or skipped.
A byte string is the plain input. `Buffered` puts a buffer of fixed capacity in front of a
source; it is always asked for few enough bytes ahead to hold them.
-/

namespace MessagePack

class ByteInput (ι : Type) where
  /-- Bytes that can still be had. -/
  size : ι → Nat
  /-- The next `n` bytes, left in place. -/
  ahead (n : Nat) : Attempt ι Bytes
  /-- Pass over bytes that have been looked at. -/
  consume (n : Nat) : ι → ι
  take (n : Nat) : Attempt ι Bytes
  skip (n : Nat) : Attempt ι Unit
  ahead_ok {n : Nat} {input after : ι} {bytes : Bytes} :
    ahead n input = (.ok bytes, after) →
      size after = size input ∧ size (consume n after) + n = size input
  skip_ok {n : Nat} {input after : ι} :
    skip n input = (.ok (), after) → size after ≤ size input

namespace Bytes

/-! A failed request uses up what there is. -/

def ahead (n : Nat) : Attempt Bytes Bytes := fun bytes =>
  if hasAtLeast n bytes then
    (.ok (bytes.take n), bytes)
  else
    (.error (.truncated n bytes.length), bytes)

def takeExactly (n : Nat) : Attempt Bytes Bytes := fun bytes =>
  if hasAtLeast n bytes then
    (.ok (bytes.take n), bytes.drop n)
  else
    (.error (.truncated n bytes.length), [])

def skipExactly (n : Nat) : Attempt Bytes Unit := fun bytes =>
  if hasAtLeast n bytes then
    (.ok (), bytes.drop n)
  else
    (.error (.truncated n bytes.length), [])

end Bytes

instance : ByteInput Bytes where
  size := List.length
  ahead := Bytes.ahead
  consume := List.drop
  take := Bytes.takeExactly
  skip := Bytes.skipExactly
  ahead_ok := by
    intro n input after bytes hahead
    unfold Bytes.ahead at hahead
    split at hahead
    · next henough =>
      cases hahead
      rw [hasAtLeast_iff] at henough
      simp only [List.length_drop, true_and]
      omega
    · cases hahead
  skip_ok := by
    intro n input after hskip
    unfold Bytes.skipExactly at hskip
    split at hskip
    · cases hskip; simp
    · cases hskip

structure Buffered where
  source : Source
  capacity : Nat
  /-- Bytes at the front of the buffer that are used up. -/
  start : Nat := 0
  /-- The bytes behind them. -/
  held : Bytes := []

namespace Buffered

def size (input : Buffered) : Nat :=
  input.held.length + input.source.unread

/-- Space behind the held bytes. -/
def room (input : Buffered) : Nat :=
  input.capacity - (input.start + input.held.length)

/-- Read until `n` bytes are held. -/
def refill (n : Nat) (input : Buffered) : Except Error Unit × Buffered :=
  if hasAtLeast n input.held then
    (.ok (), input)
  else
    match _hfetch : input.source.fetch input.room with
    | (.ok [], source) => (.error (.truncated n input.held.length), { input with source })
    | (.ok (byte :: bytes), source) =>
        refill n { input with source, held := input.held ++ byte :: bytes }
    | (.error failure, source) => (.error (.io failure), { input with source })
termination_by input.source.unread
decreasing_by
  have := Source.fetch_ok _hfetch
  simp only [List.length_cons] at this
  omega

/-- The held bytes move to the front of the buffer before anything is read. -/
def fill (n : Nat) (input : Buffered) : Except Error Unit × Buffered :=
  if hasAtLeast n input.held then
    (.ok (), input)
  else
    refill n { input with start := 0 }

def ahead (n : Nat) : Attempt Buffered Bytes := fun input =>
  match input.fill n with
  | (.ok (), filled) => (.ok (filled.held.take n), filled)
  | (.error error, filled) => (.error error, filled)

def consume (n : Nat) (input : Buffered) : Buffered :=
  { input with start := input.start + n, held := input.held.drop n }

/-- Held bytes first, the rest straight from the source. -/
def take (n : Nat) : Attempt Buffered Bytes := fun input =>
  let first := input.held.take n
  let rest := { input with start := input.start + first.length, held := input.held.drop n }
  match input.source.collect n first.toArray with
  | (.error failure, source) => (.error (.io failure), { rest with source })
  | (.ok bytes, source) =>
      if hasAtLeast n bytes then
        (.ok bytes, { rest with source })
      else
        (.error (.truncated n bytes.length), { rest with source })

/-- Skip `left` of `n` bytes through the buffer. -/
def skipLeft (n left : Nat) (input : Buffered) : Except Error Unit × Buffered :=
  let later := left - input.held.length
  if later = 0 then
    (.ok (), input.consume left)
  else
    match _hfetch : input.source.fetch input.capacity with
    | (.ok [], source) =>
        (.error (.truncated n (n - later)), { input with source, start := 0, held := [] })
    | (.ok (byte :: bytes), source) =>
        skipLeft n later { input with source, start := 0, held := byte :: bytes }
    | (.error failure, source) =>
        (.error (.io failure), { input with source, start := 0, held := [] })
termination_by input.source.unread
decreasing_by
  have := Source.fetch_ok _hfetch
  simp only [List.length_cons] at this
  omega

def skip (n : Nat) : Attempt Buffered Unit :=
  skipLeft n n

/-! What can still be had. -/

theorem refill_ok {n : Nat} {input after : Buffered}
    (hrefill : input.refill n = (.ok (), after)) :
    n ≤ after.held.length ∧ after.size = input.size := by
  fun_induction refill n input with
  | case1 input henough => cases hrefill; exact ⟨(hasAtLeast_iff _ _).mp henough, rfl⟩
  | case2 => cases hrefill
  | case3 input _ byte bytes source hfetch ih =>
    obtain ⟨henough, hsize⟩ := ih hrefill
    refine ⟨henough, hsize.trans ?_⟩
    have := Source.fetch_ok hfetch
    simp only [size, List.length_append]
    omega
  | case4 => cases hrefill

theorem fill_ok {n : Nat} {input after : Buffered} (hfill : input.fill n = (.ok (), after)) :
    n ≤ after.held.length ∧ after.size = input.size := by
  unfold fill at hfill
  split at hfill
  · next henough => cases hfill; exact ⟨(hasAtLeast_iff _ _).mp henough, rfl⟩
  · obtain ⟨henough, hsize⟩ := refill_ok hfill
    exact ⟨henough, hsize⟩

theorem ahead_ok {n : Nat} {input after : Buffered} {bytes : Bytes}
    (hahead : ahead n input = (.ok bytes, after)) :
    after.size = input.size ∧ (after.consume n).size + n = input.size := by
  unfold ahead at hahead
  split at hahead
  · next filled hfill =>
    cases hahead
    obtain ⟨henough, hsize⟩ := fill_ok hfill
    simp only [size, consume, List.length_drop] at hsize ⊢
    omega
  · cases hahead

theorem skipLeft_ok {n left : Nat} {input after : Buffered}
    (hskip : input.skipLeft n left = (.ok (), after)) : after.size ≤ input.size := by
  fun_induction skipLeft n left input with
  | case1 => cases hskip; simp [consume, size]
  | case2 => cases hskip
  | case3 left input later _ byte bytes source hfetch ih =>
    have hafter := ih hskip
    have hsource := Source.fetch_ok hfetch
    simp only [size] at hafter ⊢
    omega
  | case4 => cases hskip

instance : ByteInput Buffered where
  size := size
  ahead := ahead
  consume := consume
  take := take
  skip := skip
  ahead_ok := ahead_ok
  skip_ok := skipLeft_ok

end Buffered
end MessagePack
