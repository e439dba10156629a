import MessagePack.Proofs.Arrival
import MessagePack.Proofs.Ceiling
import MessagePack.Proofs.Sticky

/-!
How much a stream holds. It reads only while it holds no message and no more than the limit, so
what it holds is never more than the limit and one read; and nothing that keeps within the limits
is refused for being too big, whatever comes behind it.
-/

namespace MessagePack

variable {config : Config} {options : TagOptions}

theorem Header.decode_eq_error {bytes : Bytes} {error : Error}
    (hdecode : decode options bytes = .error error) :
    (∃ wanted got, error = .truncated wanted got) ∨ ∃ reason, error = .invalid reason := by
  unfold decode at hdecode
  split at hdecode
  · cases hdecode
    exact .inl ⟨1, 0, rfl⟩
  · simp only at hdecode
    split at hdecode
    · cases hdecode
      exact .inl ⟨_, _, rfl⟩
    · split at hdecode
      · cases hdecode
        exact .inr ⟨_, rfl⟩
      · cases hdecode

/-- A scan fails for what a header says, and for nothing else. -/
theorem messageLength_eq_error {buffer : Bytes} {error : Error}
    (hlength : messageLength options buffer = .error error) :
    ∃ reason, error = .invalid reason := by
  obtain ⟨passed, left, after, rfl, hthrough, hhalts, hadvance⟩ := Scan.resume_start options buffer
  rw [messageLength, hadvance] at hlength
  cases hhalts with
  | done hdone => rw [Scan.advance_done hdone] at hlength; cases hlength
  | wants hwants => rw [hwants.advance] at hlength; cases hlength
  | refuses other hrefuses =>
      rw [hrefuses.advance] at hlength
      cases hlength
      cases hrefuses with
      | header hdecode hthere =>
          rcases Header.decode_eq_error hdecode with ⟨wanted, got, rfl⟩ | hinvalid
          · exact absurd rfl (hthere wanted got)
          · exact hinvalid

/-! Any source. -/

namespace Source

variable {source after : Source} {room : Nat} {result : Except IoFailure Bytes}

/-- The bytes that a read comes to. -/
def got : Except IoFailure Bytes → Bytes
  | .ok bytes => bytes
  | .error _ => []

theorem deliver_got {most : Nat} {deliveries rest : List Delivery}
    (hdeliver : deliver most deliveries = (result, rest)) :
    contentOf deliveries = got result ++ contentOf rest ∧ (got result).length ≤ most := by
  fun_induction deliver most deliveries with
  | case1 =>
      cases hdeliver
      exact ⟨rfl, Nat.zero_le _⟩
  | case2 tail ih => exact ih hdeliver
  | case3 byte tail rest now later hsplit =>
      rw [List.splitAt_eq] at hsplit
      cases hsplit
      cases hdeliver
      refine ⟨?_, List.length_take_le _ _⟩
      simp only [got, contentOf]
      rw [← List.append_assoc, List.take_append_drop]
  | case4 | case5 =>
      cases hdeliver
      exact ⟨rfl, Nat.zero_le _⟩

theorem read_got (hread : source.read room = (result, after)) :
    source.content = got result ++ after.content ∧ (got result).length ≤ room := by
  unfold read at hread
  split at hread
  next found rest hdeliver =>
    cases hread
    obtain ⟨hcontent, hlength⟩ := deliver_got hdeliver
    exact ⟨hcontent, Nat.le_trans hlength (Nat.min_le_left _ _)⟩

end Source

namespace Stream

/-- No more than the limit is held, and no message. -/
structure Awaits (config : Config) (held : Bytes) : Prop where
  size : held.length ≤ config.maxSize
  length : messageLength config.tagOptions held = .ok none

/-- Reads one after the other, from what is held and the source to what is held and the source
then. Each is made while more is awaited. -/
inductive Draws (config : Config) : Bytes → Source → Bytes → Source → Prop
  | none (held : Bytes) (source : Source) : Draws config held source held source
  | read {held more : Bytes} {source next last : Source} {result : Except IoFailure Bytes}
      (hawaits : Awaits config held) (hread : source.read config.bufferSize = (result, next))
      (hrest : Draws config (held ++ Source.got result) next more last) :
      Draws config held source more last

namespace Draws

variable {held more : Bytes} {source next last : Source}

theorem content (hdraws : Draws config held source more last) :
    held ++ source.content = more ++ last.content := by
  induction hdraws with
  | none => rfl
  | read _ hread _ ih => rw [← ih, (Source.read_got hread).1, List.append_assoc]

/-- One read at most goes beyond the limit. -/
theorem length_le (hdraws : Draws config held source more last)
    (hheld : held.length ≤ config.maxSize + config.bufferSize) :
    more.length ≤ config.maxSize + config.bufferSize := by
  induction hdraws with
  | none => exact hheld
  | read hawaits hread _ ih =>
      apply ih
      have hsize := hawaits.size
      have hgot := (Source.read_got hread).2
      rw [List.length_append]
      omega

/-- Reads that are repeated after interruptions do not change what is held. -/
theorem fetch {result : Except IoFailure Bytes} (hawaits : Awaits config held)
    (hfetch : source.fetch config.bufferSize = (result, next))
    (hrest : Draws config (held ++ Source.got result) next more last) :
    Draws config held source more last := by
  fun_induction Source.fetch config.bufferSize source with
  | case1 source bytes after hread =>
      cases hfetch
      exact .read hawaits hread hrest
  | case2 source failure after hread _ ih =>
      apply Draws.read hawaits hread
      rw [Source.got, List.append_nil]
      exact ih hfetch
  | case3 source failure after hread =>
      cases hfetch
      exact .read hawaits hread hrest

end Draws

/-- A call for a tree, from what is held and the source to its result, what is held and the source
then. It reads while more is awaited, up to a message or to what can be none, until there is too
much without a message, or as far as the source goes. A live source that has nothing to give now
is no failure. -/
inductive Turn (config : Config) (maxDepth : Nat) (live : Bool) (held : Bytes) (source : Source) :
    Except Error (Option Tree) → Bytes → Source → Prop
  | message {more : Bytes} {last : Source} {n : Nat} (hdraws : Draws config held source more last)
      (hlength : messageLength config.tagOptions more = .ok (some n)) :
      Turn config maxDepth live held source
        ((Tree.parseWithin config maxDepth (more.take n)).map some) (more.drop n) last
  | refused {more : Bytes} {last : Source} {error : Error}
      (hdraws : Draws config held source more last)
      (hlength : messageLength config.tagOptions more = .error error) :
      Turn config maxDepth live held source (.error error) more last
  | oversized {more : Bytes} {last : Source} (hdraws : Draws config held source more last)
      (hlength : messageLength config.tagOptions more = .ok none)
      (hsize : config.maxSize < more.length) :
      Turn config maxDepth live held source (.error (.tooBig more.length config.maxSize)) more last
  | short {more : Bytes} {last : Source} (hdraws : Draws config held source more last)
      (hawaits : Awaits config more) (hsome : more ≠ []) :
      Turn config maxDepth live held source (.error (.truncated (more.length + 1) more.length)) more
        last
  | exhausted {last : Source} (hdraws : Draws config held source [] last) :
      Turn config maxDepth live held source (.ok none) [] last
  | idle {more : Bytes} {next last : Source} {outcome : Except IoFailure Bytes}
      (hdraws : Draws config held source more next) (hawaits : Awaits config more)
      (hfetch : next.fetch config.bufferSize = (outcome, last)) (hlive : live = true)
      (hnothing : outcome = .ok [] ∨ ∃ failure, outcome = .error failure ∧
        failure.kind = .wouldBlock) :
      Turn config maxDepth live held source (.ok none) more last
  | failed {more : Bytes} {next last : Source} {failure : IoFailure}
      (hdraws : Draws config held source more next) (hawaits : Awaits config more)
      (hfetch : next.fetch config.bufferSize = (.error failure, last))
      (hfatal : ¬(failure.kind = .wouldBlock ∧ live = true)) :
      Turn config maxDepth live held source (.error (.io failure)) more last

namespace Turn

variable {maxDepth : Nat} {live : Bool} {held more : Bytes} {source next last : Source}
  {result : Except Error (Option Tree)}

theorem length_le (hturn : Turn config maxDepth live held source result more last)
    (hheld : held.length ≤ config.maxSize + config.bufferSize) :
    more.length ≤ config.maxSize + config.bufferSize := by
  cases hturn with
  | message hdraws =>
      rw [List.length_drop]
      exact Nat.le_trans (Nat.sub_le _ _) (hdraws.length_le hheld)
  | refused hdraws | oversized hdraws | short hdraws | exhausted hdraws | idle hdraws
  | failed hdraws => exact hdraws.length_le hheld

/-- A call goes on behind reads as it would have begun there. -/
theorem fetched {outcome : Except IoFailure Bytes} (hawaits : Awaits config held)
    (hfetch : source.fetch config.bufferSize = (outcome, next))
    (hturn : Turn config maxDepth live (held ++ Source.got outcome) next result more last) :
    Turn config maxDepth live held source result more last := by
  cases hturn with
  | message hdraws hfound => exact .message (hdraws.fetch hawaits hfetch) hfound
  | refused hdraws hrefused => exact .refused (hdraws.fetch hawaits hfetch) hrefused
  | oversized hdraws hnone hmore => exact .oversized (hdraws.fetch hawaits hfetch) hnone hmore
  | short hdraws hmore hsome => exact .short (hdraws.fetch hawaits hfetch) hmore hsome
  | exhausted hdraws => exact .exhausted (hdraws.fetch hawaits hfetch)
  | idle hdraws hmore hlast hlive hnothing =>
      exact .idle (hdraws.fetch hawaits hfetch) hmore hlast hlive hnothing
  | failed hdraws hmore hlast hfatal =>
      exact .failed (hdraws.fetch hawaits hfetch) hmore hlast hfatal

/-- What keeps within the limits is not too big, whatever comes behind it. -/
theorem not_tooBig (hturn : Turn config maxDepth live held source result more last)
    (hvalid : config.Valid) (hnode : config.node = true) {message : Message} {rest : Bytes}
    (hcomplete : message.Complete config.tagOptions)
    (hsize : message.bytes.length ≤ config.maxSize) (hnodes : message.nodes ≤ config.maxNodes)
    (hfront : message.bytes <+: held ++ source.content ++ rest) (size limit : Nat) :
    result ≠ .error (.tooBig size limit) := by
  obtain ⟨behind, hbehind⟩ := hfront
  have hmessage : Messages config.tagOptions 1 message.bytes :=
    Messages.one_iff.mpr ⟨message, hcomplete, rfl⟩
  intro hbig
  cases hturn with
  | @message more _ n hdraws hlength =>
      rw [hdraws.content, List.append_assoc] at hbehind
      have hfound := messageLength_append hlength (last.content ++ rest)
      rw [← hbehind, messageLength_of_messages hmessage] at hfound
      cases hfound
      have hwithin := (messageLength_pos hlength).2
      have htake : more.take message.bytes.length = message.bytes := by
        have hsame := congrArg (List.take message.bytes.length) hbehind
        rw [List.take_left, List.take_append_of_le_length hwithin] at hsame
        exact hsame.symm
      rw [htake] at hbig
      cases hparse : Tree.parseWithin config maxDepth message.bytes with
      | ok tree =>
          rw [hparse] at hbig
          cases hbig
      | error error =>
          rw [hparse] at hbig
          cases hbig
          exact Tree.parseWithin_not_tooBig hvalid hnode hcomplete hsize hnodes hparse
  | refused _ hlength =>
      obtain ⟨reason, rfl⟩ := messageLength_eq_error hlength
      cases hbig
  | oversized hdraws hlength hover =>
      -- the message would have to end behind what is held, and that is too much for it already
      rw [hdraws.content, List.append_assoc] at hbehind
      have hfound := messageLength_of_messages hmessage behind
      rw [hbehind] at hfound
      have hbeyond := messageLength_beyond hlength hfound
      omega
  | short | exhausted | idle | failed => cases hbig

end Turn

namespace State

variable {state : State}

/-- The scan has passed a part of what is held, from the front on. -/
structure Attentive (config : Config) (state : State) : Prop where
  configured : state.config = config
  scanned : state.scan.Scanned config.tagOptions state.buffer

/-- A call is a turn, and it leaves a state for another call. -/
theorem Attentive.next (hattentive : state.Attentive config) :
    Turn config state.maxDepth state.live state.buffer state.source state.next.1
      state.next.2.buffer state.next.2.source ∧ state.next.2.Attentive config := by
  have hround {state after : State} {round : Except Error Round}
      (hattentive : state.Attentive config) (hcut : state.cut = (round, after)) :
      Concludes config state round after := by
    have hconcludes := cut_concludes hattentive.configured hattentive.scanned
    rwa [hcut] at hconcludes
  fun_induction State.next state with
  | case1 state error after hcut =>
      cases hround hattentive hcut with
      | refused hlength hscanned =>
          exact ⟨.refused (.none _ _) hlength, hattentive.configured, hscanned⟩
      | oversized hlength hscanned hsize =>
          exact ⟨.oversized (.none _ _) hlength hsize, hattentive.configured, hscanned⟩
      | short hlength hscanned hsize _ hsome =>
          exact ⟨.short (.none _ _) ⟨hsize, hlength⟩ hsome, hattentive.configured, hscanned⟩
  | case2 state bytes after hcut =>
      cases hround hattentive hcut with
      | message hlength =>
          simp only [hattentive.configured]
          exact ⟨.message (.none _ _) hlength, rfl, Scan.scanned_start _ _⟩
  | case3 state after hcut =>
      cases hround hattentive hcut with
      | exhausted hscanned _ hempty =>
          refine ⟨?_, hattentive.configured, hscanned⟩
          rw [hempty]
          exact .exhausted (.none _ _)
  | case4 state after hcut source hfetch hlive =>
      cases hround hattentive hcut with
      | wanting hlength hscanned hsize =>
          rw [hattentive.configured] at hfetch
          exact ⟨.idle (.none _ _) ⟨hsize, hlength⟩ hfetch hlive (.inl rfl),
            hattentive.configured, hscanned⟩
  | case5 state after hcut source hfetch hlive ih =>
      cases hround hattentive hcut with
      | wanting hlength hscanned hsize =>
          rw [hattentive.configured] at hfetch
          obtain ⟨hturn, hafter⟩ := ih ⟨hattentive.configured, hscanned⟩
          refine ⟨.fetched ⟨hsize, hlength⟩ hfetch ?_, hafter⟩
          rwa [Source.got, List.append_nil]
  | case6 state after hcut byte more source hfetch ih =>
      cases hround hattentive hcut with
      | wanting hlength hscanned hsize =>
          rw [hattentive.configured] at hfetch
          obtain ⟨hturn, hafter⟩ := ih ⟨hattentive.configured, hscanned.append _⟩
          exact ⟨.fetched ⟨hsize, hlength⟩ hfetch hturn, hafter⟩
  | case7 state after hcut failure source hfetch hblocked =>
      cases hround hattentive hcut with
      | wanting hlength hscanned hsize =>
          rw [hattentive.configured] at hfetch
          exact ⟨.idle (.none _ _) ⟨hsize, hlength⟩ hfetch hblocked.2
            (.inr ⟨failure, rfl, hblocked.1⟩), hattentive.configured, hscanned⟩
  | case8 state after hcut failure source hfetch hblocked =>
      cases hround hattentive hcut with
      | wanting hlength hscanned hsize =>
          rw [hattentive.configured] at hfetch
          exact ⟨.failed (.none _ _) ⟨hsize, hlength⟩ hfetch hblocked,
            hattentive.configured, hscanned⟩

end State

variable {stream : Stream}

/-- What every stream keeps, whatever is asked of it. -/
structure Restrained (config : Config) (stream : Stream) : Prop where
  attentive : stream.state.Attentive config
  bounded : stream.buffered ≤ config.maxSize + config.bufferSize

theorem next_of_error {error : Error} (herror : stream.error? = some error) :
    next stream = (.error error, stream) :=
  (Latch.call_guarded State.next).stuck herror

theorem next_of_none (herror : stream.error? = none) :
    (next stream).1 = stream.state.next.1 ∧ (next stream).2.state = stream.state.next.2 := by
  obtain ⟨state, error?⟩ := stream
  obtain rfl : error? = none := herror
  exact ⟨Latch.call_result State.next state, Latch.call_state State.next state⟩

namespace Restrained

theorem next (hrestrained : stream.Restrained config) : (next stream).2.Restrained config := by
  cases herror : stream.error? with
  | some error =>
      rw [next_of_error herror]
      exact hrestrained
  | none =>
      obtain ⟨hturn, hafter⟩ := hrestrained.attentive.next
      have hstate := (next_of_none herror).2
      rw [← hstate] at hturn hafter
      exact ⟨hafter, hturn.length_le hrestrained.bounded⟩

theorem pull (hrestrained : stream.Restrained config) : (pull stream).2.Restrained config := by
  have hafter := hrestrained.next
  unfold Stream.pull
  split
  · exact hrestrained
  · split <;> next hnext => rw [hnext] at hafter; exact hafter

theorem serve (hrestrained : stream.Restrained config) (request : Request) :
    (serve request stream).2.Restrained config := by
  cases request with
  | next => exact hrestrained.next
  | pull => exact hrestrained.pull
  | setLive live | setMaxDepth maxDepth =>
      exact ⟨⟨hrestrained.attentive.configured, hrestrained.attentive.scanned⟩,
        hrestrained.bounded⟩

end Restrained

/-- Whatever is asked of a stream, over any source, it holds no more than the limit and one read,
and a call for a tree is a turn, or nothing at all once there was an error. No message that keeps
within the limits is refused for being too big, whatever comes behind it. -/
theorem buffered_le (hvalid : config.Valid) (hnode : config.node = true) (source : Source) :
    ∃ stream, create config source = .ok stream ∧ ∀ (requests : List Request) (reached : Stream),
      (Latch.serveAll serve requests stream).2 = reached →
        reached.buffered ≤ config.maxSize + config.bufferSize ∧
        (∀ error, reached.error? = some error → next reached = (.error error, reached)) ∧
        (reached.error? = none →
          Turn config reached.state.maxDepth reached.state.live reached.state.buffer
            reached.state.source (next reached).1 (next reached).2.state.buffer
            (next reached).2.state.source ∧
          ∀ (message : Message) (rest : Bytes), message.Complete config.tagOptions →
            message.bytes.length ≤ config.maxSize → message.nodes ≤ config.maxNodes →
            message.bytes <+: reached.state.buffer ++ reached.state.source.content ++ rest →
            ∀ size limit, (next reached).1 ≠ .error (.tooBig size limit)) := by
  have hcreate : create config source =
      .ok { state := { source, config, maxDepth := config.maxDepth } } := by
    rw [create, hvalid.validate, requireFeature_on hnode]
    rfl
  refine ⟨_, hcreate, ?_⟩
  rintro requests reached rfl
  have hrestrained : Restrained config (Latch.serveAll serve requests
      { state := { source, config, maxDepth := config.maxDepth } }).2 := by
    apply Latch.serveAll_keeps
    · intro request stream hstream
      exact hstream.serve request
    · exact ⟨⟨rfl, Scan.scanned_start _ _⟩, Nat.zero_le _⟩
  refine ⟨hrestrained.bounded, fun _ => next_of_error, fun herror => ?_⟩
  obtain ⟨hturn, -⟩ := hrestrained.attentive.next
  obtain ⟨hresult, hstate⟩ := next_of_none herror
  rw [← hresult, ← hstate] at hturn
  refine ⟨hturn, ?_⟩
  intro message rest hcomplete hsize hnodes hfront
  exact hturn.not_tooBig hvalid hnode hcomplete hsize hnodes hfront

/-- A str that fills the limit with a byte behind it, and an array that never ends within it. -/
theorem buffered_le_pieces :
    ∃ stream, create { maxSize := 2, bufferSize := 3 }
        { deliveries := [.chunk [0xa1, 0x68, 0x95], .pause, .chunk [0xc0, 0xc3, 0xc2]] } =
          .ok stream ∧
      (∀ size limit, (next stream).1 ≠ .error (.tooBig size limit)) ∧
      ∀ calls, buffered (Latch.serveAll serve (.setLive true :: List.replicate calls .next)
        stream).2 ≤ 5 := by
  have hvalid : Config.Valid { maxSize := 2, bufferSize := 3 } := by decide
  obtain ⟨stream, hcreate, hall⟩ := buffered_le hvalid rfl
    { deliveries := [.chunk [0xa1, 0x68, 0x95], .pause, .chunk [0xc0, 0xc3, 0xc2]] }
  have hsource := hcreate
  cases hsource
  have hcomplete : (Message.node [0xa1] (.str 1) [0x68] []).Complete
      (Config.tagOptions { maxSize := 2, bufferSize := 3 }) :=
    .node rfl rfl rfl fun _ hnone => by cases hnone
  obtain ⟨-, -, hfirst⟩ := hall [] _ rfl
  refine ⟨_, hcreate, ?_, fun calls => (hall _ _ rfl).1⟩
  exact (hfirst rfl).2 _ [] hcomplete (by decide) (by decide) (by decide)

end Stream
end MessagePack
