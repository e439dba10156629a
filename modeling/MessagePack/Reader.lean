import MessagePack.Header
import MessagePack.Nesting
import MessagePack.Reader.Input

/-!
Incremental reading.

One header is read at a time; what a compound holds is read by the caller, who then leaves
it. The first error sticks, and a reader that has failed never touches its input again.
-/

namespace MessagePack

structure Reader.State (ι : Type) where
  input : ι
  nesting : Nesting
  options : TagOptions
  maxAlloc : Nat

abbrev Reader (ι : Type) := Latch (Reader.State ι)

namespace Reader

variable {ι : Type}

/-- A reader over any input that the configuration allows. -/
def ofInput (config : Config) (input : ι) : Except Error (Reader ι) := do
  config.validate
  requireFeature config.reader .reader
  return {
    state := {
      input
      nesting := { enabled := config.readTracking, limit := config.trackingLimit }
      options := config.tagOptions
      maxAlloc := config.maxAlloc } }

/-- A reader over a source, with a buffer that holds at least one header. -/
def create (config : Config) (source : Source) : Except Error (Reader Buffered) :=
  ofInput config { source, capacity := max config.bufferSize Header.maxSize }

def depth (reader : Reader ι) : Nat :=
  reader.state.nesting.depth

namespace State

variable [ByteInput ι]

def track (operation : Nesting → Except Error Nesting) : Attempt (State ι) Unit :=
  .update State.nesting (fun nesting state => { state with nesting }) operation

def onInput (attempt : Attempt ι α) : Attempt (State ι) α :=
  attempt.within State.input (fun input state => { state with input })

/-- Decode the next header and leave it in place. -/
def header : Attempt (State ι) (Tag × Nat) := do
  let first ← onInput (ByteInput.ahead 1)
  let size := Header.size (first.headD 0)
  let bytes ← onInput (ByteInput.ahead size)
  let (tag, _) ← Attempt.lift (Header.decode (← get).options bytes)
  return (tag, size)

def peekTag : Attempt (State ι) Tag := do
  return (← header).1

/-- Read the next tag, seen through `view`, and enter the compound it opens. -/
def nextTag (view : Tag → Tag) : Attempt (State ι) Tag := do
  let (found, size) ← header
  let tag := view found
  track Nesting.element
  track (Nesting.enterTag tag)
  modify fun state => { state with input := ByteInput.consume size state.input }
  return tag

def readTag : Attempt (State ι) Tag :=
  nextTag id

/-- Payload bytes of the open str, bin or ext. -/
def readBytes (n : Nat) : Attempt (State ι) Bytes := do
  track (Nesting.bytes n)
  onInput (ByteInput.take n)

/-- Payload bytes within the allocation bound. -/
def copyBytes (n : Nat) : Attempt (State ι) Bytes := do
  let limit := (← get).maxAlloc
  if limit < n then
    throw (.tooBig n limit)
  readBytes n

def readText (n : Nat) : Attempt (State ι) String := do
  match ofUtf8? (← copyBytes n) with
  | some text => return text
  | none => throw (.invalid .invalidUtf8)

def skipBytes (n : Nat) : Attempt (State ι) Unit := do
  track (Nesting.bytes n)
  onInput (ByteInput.skip n)

def leave (kind : Compound) : Attempt (State ι) Unit :=
  track (Nesting.leave kind)

/-- Whether no further message starts here. -/
def atEnd : Attempt (State ι) Bool := fun state =>
  match onInput (ByteInput.ahead 1) state with
  | (.ok _, after) => (.ok false, after)
  | (.error (.truncated _ _), after) => (.ok true, after)
  | (.error error, after) => (.error error, after)

def finish : Attempt (State ι) Unit := do
  Attempt.lift (← get).nesting.checkClosed

/-! Discarding a whole value. A level is a compound and the elements it is still owed. -/

/-- Pass over what a tag opens, if it opens no elements. -/
def passOver (tag : Tag) : Attempt (State ι) Unit :=
  match tag.opens? with
  | none => pure ()
  | some (kind, count) =>
      if kind.holdsBytes then do
        skipBytes count
        leave kind
      else
        leave kind

/-- One element is complete, and with it every compound that it completes. -/
def unwind : List (Compound × Nat) → Attempt (State ι) (List (Compound × Nat))
  | [] => return []
  | (kind, owed) :: outer =>
      if owed ≤ 1 then do
        leave kind
        unwind outer
      else
        return (kind, owed - 1) :: outer

/-- The elements a tag opens, if there are any. -/
def owes? (tag : Tag) : Option (Compound × Nat) :=
  match tag.opens? with
  | some (kind, count) => if kind.holdsBytes ∨ count = 0 then none else some (kind, count)
  | none => none

def size (state : State ι) : Nat :=
  ByteInput.size state.input

omit [ByteInput ι] in
theorem input_track {operation : Nesting → Except Error Nesting} {state after : State ι}
    {result : Except Error Unit} (htrack : track operation state = (result, after)) :
    after.input = state.input := by
  unfold track Attempt.update at htrack
  split at htrack <;> cases htrack <;> rfl

theorem size_track {operation : Nesting → Except Error Nesting} {state after : State ι}
    {result : Except Error Unit} (htrack : track operation state = (result, after)) :
    after.size = state.size := by
  rw [size, input_track htrack, size]

theorem size_onInput_skip {n : Nat} {state after : State ι}
    (hskip : onInput (ByteInput.skip n) state = (.ok (), after)) : after.size ≤ state.size := by
  unfold onInput Attempt.within at hskip
  rcases hinput : ByteInput.skip n state.input with ⟨result, input⟩
  rw [hinput] at hskip
  cases hskip
  exact ByteInput.skip_ok hinput

theorem size_skipBytes {n : Nat} {state after : State ι}
    (hskip : skipBytes n state = (.ok (), after)) : after.size ≤ state.size := by
  obtain ⟨_, middle, htrack, hinput⟩ := Attempt.bind_eq_ok hskip
  rw [← size_track htrack]
  exact size_onInput_skip hinput

theorem size_passOver {tag : Tag} {state after : State ι}
    (hpass : passOver tag state = (.ok (), after)) : after.size ≤ state.size := by
  unfold passOver at hpass
  rcases hopens : tag.opens? with _ | ⟨kind, count⟩
  · rw [hopens] at hpass
    cases hpass
    exact Nat.le_refl _
  · simp only [hopens] at hpass
    split at hpass
    · obtain ⟨_, middle, hskip, hleave⟩ := Attempt.bind_eq_ok hpass
      rw [size_track hleave]
      exact size_skipBytes hskip
    · exact Nat.le_of_eq (size_track hpass)

theorem size_unwind {levels rest : List (Compound × Nat)} {state after : State ι}
    (hunwind : unwind levels state = (.ok rest, after)) : after.size = state.size := by
  induction levels generalizing state with
  | nil => cases hunwind; rfl
  | cons level outer ih =>
    simp only [unwind] at hunwind
    split at hunwind
    · obtain ⟨_, middle, hleave, houter⟩ := Attempt.bind_eq_ok hunwind
      rw [ih houter]
      exact size_track hleave
    · cases hunwind
      rfl

theorem size_ahead {n : Nat} {state after : State ι} {bytes : Bytes}
    (hahead : onInput (ByteInput.ahead n) state = (.ok bytes, after)) :
    after.size = state.size ∧
      ByteInput.size (ByteInput.consume n after.input) + n = state.size := by
  unfold onInput Attempt.within at hahead
  rcases hinput : ByteInput.ahead n state.input with ⟨result, input⟩
  rw [hinput] at hahead
  cases hahead
  exact ByteInput.ahead_ok hinput

theorem size_header {tag : Tag} {n : Nat} {state after : State ι}
    (hheader : header state = (.ok (tag, n), after)) :
    0 < n ∧ ByteInput.size (ByteInput.consume n after.input) + n = state.size := by
  obtain ⟨first, middle, hfirst, hrest⟩ := Attempt.bind_eq_ok hheader
  obtain ⟨bytes, last, hbytes, hdecode⟩ := Attempt.bind_eq_ok hrest
  obtain ⟨_, _, hget, hlift⟩ := Attempt.bind_eq_ok hdecode
  cases hget
  obtain ⟨⟨found, length⟩, _, hlift, hpure⟩ := Attempt.bind_eq_ok hlift
  obtain ⟨_, rfl⟩ := Attempt.lift_eq_ok hlift
  cases hpure
  rw [← (size_ahead hfirst).1]
  exact ⟨Nat.succ_pos _, (size_ahead hbytes).2⟩

theorem size_readTag {tag : Tag} {state after : State ι}
    (hread : readTag state = (.ok tag, after)) : after.size < state.size := by
  obtain ⟨⟨found, length⟩, middle, hheader, hrest⟩ := Attempt.bind_eq_ok hread
  obtain ⟨_, charged, helement, hrest⟩ := Attempt.bind_eq_ok hrest
  obtain ⟨_, entered, henter, hrest⟩ := Attempt.bind_eq_ok hrest
  obtain ⟨_, consumed, hconsume, hpure⟩ := Attempt.bind_eq_ok hrest
  cases hconsume
  cases hpure
  obtain ⟨hpos, hsize⟩ := size_header hheader
  simp only [size, input_track henter, input_track helement] at hsize ⊢
  omega

/-- Read past one value, given the levels around it; nesting takes no call stack. -/
def discardWithin (levels : List (Compound × Nat)) (state : State ι) :
    Except Error Unit × State ι :=
  match _hread : readTag state with
  | (.error error, after) => (.error error, after)
  | (.ok tag, after) =>
      match owes? tag with
      | some level => discardWithin (level :: levels) after
      | none =>
          match _hpass : (do passOver tag; unwind levels : Attempt (State ι) _) after with
          | (.error error, after) => (.error error, after)
          | (.ok [], after) => (.ok (), after)
          | (.ok (level :: outer), after) => discardWithin (level :: outer) after
termination_by state.size
decreasing_by
  · exact size_readTag _hread
  · have hlt := size_readTag _hread
    obtain ⟨_, middle, hpass, hunwind⟩ := Attempt.bind_eq_ok _hpass
    have hle := size_passOver hpass
    rw [← size_unwind hunwind] at hle
    omega

def discard : Attempt (State ι) Unit :=
  discardWithin []

end State
end Reader
end MessagePack
