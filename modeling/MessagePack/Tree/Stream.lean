import MessagePack.Message
import MessagePack.Tree

/-!
Trees out of a source that holds message after message.

Bytes are buffered until a scan has found the end of a message, which is then cut off and
parsed. At the end of the source nothing may be left over, unless the stream is live: then a
source that has nothing to give now is asked again later.
-/

namespace MessagePack

structure Stream.State where
  source : Source
  config : Config
  maxDepth : Nat
  live : Bool := false
  buffer : Bytes := []
  /-- The source has come to its end. -/
  ended : Bool := false
  scan : Scan := {}

abbrev Stream := Latch Stream.State

namespace Stream

def create (config : Config) (source : Source) : Except Error Stream := do
  config.validate
  requireFeature config.node .node
  return { state := { source, config, maxDepth := config.maxDepth } }

def buffered (stream : Stream) : Nat :=
  stream.state.buffer.length

def setLive (live : Bool) (stream : Stream) : Stream :=
  { stream with state := { stream.state with live } }

def setMaxDepth (maxDepth : Nat) (stream : Stream) : Stream :=
  { stream with state := { stream.state with maxDepth } }

namespace State

/-- What one round at the buffer comes to. -/
inductive Round where
  | message (bytes : Bytes)
  | exhausted
  | wanting

/-- Cut off a complete message, or tell whether more bytes are wanted. -/
def cut (state : State) : Except Error Round × State :=
  let (found, scan) :=
    if state.buffer = [] then
      (.ok none, state.scan)
    else
      Scan.resume state.config.tagOptions state.buffer state.scan
  match found with
  | .error error => (.error error, { state with scan })
  | .ok (some length) =>
      (.ok (.message (state.buffer.take length)),
        { state with buffer := state.buffer.drop length, scan := {} })
  | .ok none =>
      let held := state.buffer.length
      (if state.config.maxSize < held then
        .error (.tooBig held state.config.maxSize)
      else if !state.ended then
        .ok .wanting
      else if state.buffer = [] then
        .ok .exhausted
      else
        .error (.truncated (held + 1) held), { state with scan })

theorem cut_wanting {state after : State} (hcut : state.cut = (.ok .wanting, after)) :
    after.source = state.source ∧ after.buffer = state.buffer ∧ after.ended = state.ended ∧
      state.ended = false := by
  unfold cut at hcut
  split at hcut
  next found scan _ =>
    split at hcut
    · cases hcut
    · cases hcut
    · simp only [Prod.mk.injEq] at hcut
      obtain ⟨hround, rfl⟩ := hcut
      refine ⟨rfl, rfl, rfl, ?_⟩
      split at hround
      · cases hround
      · split at hround
        · next hended => simpa using hended
        · split at hround <;> cases hround

/-- Reads that can still change anything. -/
def pending (state : State) : Nat :=
  state.source.unread + if state.ended then 0 else 1

/-- The next tree, or nothing at the end of the source or while a live one has no more. -/
def next (state : State) : Except Error (Option Tree) × State :=
  match _hcut : state.cut with
  | (.error error, after) => (.error error, after)
  | (.ok (.message bytes), after) =>
      ((Tree.parseWithin after.config after.maxDepth bytes).map some, after)
  | (.ok .exhausted, after) => (.ok none, after)
  | (.ok .wanting, after) =>
      match _hfetch : after.source.fetch after.config.bufferSize with
      | (.ok [], source) =>
          if after.live then
            (.ok none, { after with source })
          else
            next { after with source, ended := true }
      | (.ok (byte :: bytes), source) =>
          next { after with source, buffer := after.buffer ++ byte :: bytes }
      | (.error failure, source) =>
          if failure.kind = .wouldBlock ∧ after.live then
            (.ok none, { after with source })
          else
            (.error (.io failure), { after with source })
termination_by state.pending
decreasing_by
  all_goals
    have hunread := Source.fetch_ok _hfetch
    obtain ⟨hsource, _, hafter, hended⟩ := cut_wanting _hcut
    simp only [List.length_nil, List.length_cons] at hunread
    simp only [pending, hafter, hended, ← hsource, Bool.false_eq_true, if_true, if_false]
    omega

/-- Bytes that are not part of a message yet. -/
def held (state : State) : Nat :=
  state.source.unread + state.buffer.length

theorem cut_source {state after : State} {round : Except Error Round}
    (hcut : state.cut = (round, after)) : after.source = state.source := by
  unfold cut at hcut
  split at hcut
  split at hcut <;> cases hcut <;> rfl

theorem cut_message {state after : State} {bytes : Bytes}
    (hcut : state.cut = (.ok (.message bytes), after)) :
    state.buffer.length = bytes.length + after.buffer.length := by
  unfold cut at hcut
  split at hcut
  split at hcut
  · cases hcut
  · cases hcut
    simp only [List.length_take, List.length_drop]
    omega
  · simp only [Prod.mk.injEq] at hcut
    split at hcut
    · cases hcut.1
    · split at hcut
      · cases hcut.1
      · split at hcut <;> cases hcut.1

/-- A tree uses up bytes. -/
theorem held_next {state after : State} {tree : Tree}
    (hnext : state.next = (.ok (some tree), after)) : after.held < state.held := by
  fun_induction next state generalizing after
  case case2 state bytes middle hcut =>
    obtain ⟨htree, rfl⟩ := Prod.mk.inj hnext
    have hlength := cut_message hcut
    have hpos : 0 < bytes.length := by
      cases hparse : Tree.parseWithin middle.config middle.maxDepth bytes with
      | error error => simp [hparse, Except.map] at htree
      | ok tree => exact Tree.length_pos_of_parseWithin hparse
    simp only [held, cut_source hcut]
    omega
  case case5 state middle hcut source hfetch _ ih =>
    have hbytes := Source.fetch_ok hfetch
    have hlt := ih hnext
    obtain ⟨hsource, hbuffer, _⟩ := cut_wanting hcut
    simp only [held, hsource, hbuffer, List.length_nil] at *
    omega
  case case6 state middle hcut byte bytes source hfetch ih =>
    have hbytes := Source.fetch_ok hfetch
    have hlt := ih hnext
    obtain ⟨hsource, hbuffer, _⟩ := cut_wanting hcut
    simp only [held, hsource, hbuffer, List.length_append] at *
    omega
  all_goals cases hnext

end State

def next : Attempt Stream (Option Tree) :=
  Latch.call State.next

/-- The next tree or the error that ends the stream; nothing follows an error. -/
def pull (stream : Stream) : Option (Except Error Tree) × Stream :=
  match stream.error? with
  | some _ => (none, stream)
  | none =>
      match next stream with
      | (.ok none, after) => (none, after)
      | (.ok (some tree), after) => (some (.ok tree), after)
      | (.error error, after) => (some (.error error), after)

theorem held_pull {stream after : Stream} {tree : Tree}
    (hpull : stream.pull = (some (.ok tree), after)) :
    after.state.held < stream.state.held := by
  unfold pull at hpull
  split at hpull
  · cases hpull
  · next hnone =>
    unfold next Latch.call at hpull
    rw [hnone] at hpull
    cases hstep : stream.state.next with
    | mk outcome state =>
      rw [hstep] at hpull
      cases outcome with
      | error error => cases hpull
      | ok tree? =>
        cases tree? with
        | none => cases hpull
        | some tree =>
          cases hpull
          exact State.held_next hstep

/-- Behind the trees already found, all trees up to the end of the source or the first error. -/
def collect (found : Array Tree) (stream : Stream) : List Tree × Option Error :=
  match _hpull : stream.pull with
  | (none, _) => (found.toList, none)
  | (some (.error error), _) => (found.toList, some error)
  | (some (.ok tree), after) => collect (found.push tree) after
termination_by stream.state.held
decreasing_by exact held_pull _hpull

end Stream
end MessagePack
