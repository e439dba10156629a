import MessagePack.Proofs.Agreement
import MessagePack.Proofs.Backing
import MessagePack.Proofs.Cursor
import MessagePack.Proofs.Foretold
import MessagePack.Proofs.Mirror

/-!
Reading along with what was written. A reader that is asked for one header, payload or end after
the other, as the writer was given them, finds them as they were written, and is as deep as the
writer was after every call.
-/

namespace MessagePack

/-- The tag without what its header does not keep: the type of an integer, and whether a float is
more than its bits. -/
def Tag.bare : Tag → Tag
  | .int value => if 0 ≤ value then .uint value.toUInt64 else .int value
  | .rawFloat bits => .float bits
  | .rawDouble bits => .double bits
  | tag => tag

namespace Tag

theorem bare_asRead {options : TagOptions} (hversion : options.version = .v5) (tag : Tag) :
    (tag.asRead options).bare = tag.bare := by
  cases tag with
  | int value =>
      by_cases hsign : 0 ≤ value
      · simp only [asRead, bare, hsign, if_true]
      · simp only [asRead, bare, hsign, if_false]
  | rawFloat bits | rawDouble bits => simp only [asRead]; split <;> rfl
  | bin length => simp only [asRead, hversion]
  | _ => rfl

end Tag

namespace Writer

/-- What a reader is asked where a writer was given this call. -/
def Call.replay : Call → List Reader.Call
  | .tag _ | .beginBuild _ => [.readTag]
  | .bytes payload => [.readBytes payload.length]
  | .finishCompound kind | .completeBuild kind => [.leave kind]
  | .str text => [.readTag, .readBytes (utf8 text).length, .leave .str]
  | .bin content => [.readTag, .readBytes content.length, .leave .bin]
  | .ext _ content => [.readTag, .readBytes content.length, .leave .ext]
  | .object _ | .flush => []
  | .finish => [.finish]

/-- The replies that match a call, given the calls behind it. -/
inductive Call.Echoed (later : List Call) : Call → List Reader.Reply → Prop
  | tag {written found : Tag} (hsame : found.bare = written.bare) :
      Echoed later (.tag written) [.tag found]
  | bytes (payload : Bytes) : Echoed later (.bytes payload) [.bytes payload]
  | finishCompound (kind : Compound) : Echoed later (.finishCompound kind) [.done]
  | str {text : String} {length : UInt32} (hlength : length.toNat = (utf8 text).length) :
      Echoed later (.str text) [.tag (.str length), .bytes (utf8 text), .done]
  | bin {content : Bytes} {length : UInt32} (hlength : length.toNat = content.length) :
      Echoed later (.bin content) [.tag (.bin length), .bytes content, .done]
  | ext {type : Int8} {content : Bytes} {length : UInt32}
      (hlength : length.toNat = content.length) :
      Echoed later (.ext type content) [.tag (.ext type length), .bytes content, .done]
  | array {count : UInt32} (hcount : count.toNat = directCount 0 later) :
      Echoed later (.beginBuild .array) [.tag (.array count)]
  | map {pairs : UInt32} (hpairs : 2 * pairs.toNat = directCount 0 later) :
      Echoed later (.beginBuild .map) [.tag (.map pairs)]
  | completeBuild (kind : Compound) : Echoed later (.completeBuild kind) [.done]
  | flush : Echoed later .flush []
  | finish : Echoed later .finish [.done]

/-- The replies that match some calls, given the calls behind them. -/
inductive Echoes (later : List Call) : List Call → List Reader.Reply → Prop
  | none : Echoes later [] []
  | call {call : Call} {calls : List Call} {first replies : List Reader.Reply}
      (hcall : call.Echoed (calls ++ later) first) (hcalls : Echoes later calls replies) :
      Echoes later (call :: calls) (first ++ replies)

end Writer

namespace Reader.State

variable {calls : List Call} {replies : List Reply} {state after last : State Bytes}

/-- Every call succeeds, and these are the replies. -/
def Answers (calls : List Call) (state : State Bytes) (replies : List Reply)
    (after : State Bytes) : Prop :=
  run calls { state } = (replies.map .ok, { state := after })

theorem Answers.none : Answers [] state [] state :=
  rfl

theorem Answers.append {more : List Call} {others : List Reply}
    (hanswers : Answers calls state replies after) (hmore : Answers more after others last) :
    Answers (calls ++ more) state (replies ++ others) last := by
  rw [Answers, run_append, hanswers, hmore, List.map_append]

theorem Answers.one {call : Call} {reply : Reply}
    (hperform : perform call state = (.ok reply, after)) : Answers [call] state [reply] after := by
  rw [Answers, run_cons, Reader.perform, Latch.call_of_ok hperform]
  rfl

theorem Answers.readTag {tag : Tag} (hread : State.readTag state = (.ok tag, after)) :
    Answers [.readTag] state [.tag tag] after :=
  .one (by rw [perform, Attempt.bind_of_ok hread]; rfl)

theorem Answers.readBytes {n : Nat} {content : Bytes}
    (hread : State.readBytes n state = (.ok content, after)) :
    Answers [.readBytes n] state [.bytes content] after :=
  .one (by rw [perform, Attempt.bind_of_ok hread]; rfl)

theorem Answers.leave {kind : Compound} (hleave : State.leave kind state = (.ok (), after)) :
    Answers [.leave kind] state [.done] after :=
  .one (by rw [perform, Attempt.bind_of_ok hleave]; rfl)

theorem Answers.finish (hfinish : State.finish state = (.ok (), after)) :
    Answers [.finish] state [.done] after :=
  .one (by rw [perform, Attempt.bind_of_ok hfinish]; rfl)

end Reader.State

open Reader.State (Answers)
open Writer (directCount Foretold Echoes)

/-- A reader that stands where a writer stood when these were the calls to come. -/
structure Draft.Mirrored (config : Config) (calls : List Writer.Call) (draft : Draft)
    (state : Reader.State Bytes) : Prop where
  options : state.options = config.tagOptions
  nesting : Nesting.Mirrors (fun level => directCount level calls) draft.nesting state.nesting

namespace Draft.Mirrored

variable {config : Config} {calls later : List Writer.Call} {call : Writer.Call}
  {draft after : Draft} {state : Reader.State Bytes} {header rest : Bytes} {kind : Compound}

theorem shift (hmirrored : draft.Mirrored config calls state)
    (hsame : ∀ level, directCount level calls = directCount level later) :
    draft.Mirrored config later state where
  options := hmirrored.options
  nesting := by
    rw [← funext hsame]
    exact hmirrored.nesting

theorem readTag {value : Tag} {counted entered : Nesting}
    (hoptions : state.options = config.tagOptions)
    (hencode : Header.encode config.tagOptions value = .ok header)
    (hinput : state.input = header ++ rest) (helement : state.nesting.element = .ok counted)
    (henter : counted.enterTag (value.asRead config.tagOptions) = .ok entered) :
    Answers [.readTag] state [.tag (value.asRead config.tagOptions)]
      { state with input := rest, nesting := entered } := by
  have hdecode := Header.decode_encoded hencode
  rw [← hoptions] at hdecode
  rw [← hoptions] at henter ⊢
  exact .readTag (Reader.State.readTag_of_entered hdecode hinput helement henter)

/-- A compound is entered. What an open-ended one is owed, the calls to come will write. -/
theorem enter {frame : Frame} {value : Tag} {counted nesting : Nesting} {count : Nat}
    (hmirrored : draft.Mirrored config (call :: later) state) (hopening : call.effect = .opening)
    (hencode : Header.encode config.tagOptions value = .ok header)
    (hopens : (value.asRead config.tagOptions).opens? = some (kind, count))
    (hframe : frame.settled (directCount 0 later) = { kind, remaining := count })
    (hinput : state.input = header ++ rest) (helement : draft.nesting.element = .ok counted)
    (hpush : counted.push frame = .ok nesting) :
    ∃ mirrored, Answers [.readTag] state [.tag (value.asRead config.tagOptions)]
        { state with input := rest, nesting := mirrored } ∧
      Nesting.Mirrors (fun level => directCount level later) nesting mirrored := by
  obtain ⟨hfirst, hmore⟩ := Writer.directCount_opening call later hopening
  obtain ⟨middle, hmiddle, hcounted⟩ := hmirrored.nesting.element
    (fun level => directCount (level + 1) later) hfirst hmore helement
  obtain ⟨entered, hentered, hnesting⟩ := hcounted.push
    (fun level => directCount level later) (fun _ => rfl) hpush
  refine ⟨entered, readTag hmirrored.options hencode hinput hmiddle ?_, hnesting⟩
  simp only [Nesting.enterTag, hopens, Nesting.enter]
  rw [← hframe]
  exact hentered

/-! One call along. -/

theorem tag {value : Tag} (hversion : config.tagOptions.version = .v5)
    (hmirrored : draft.Mirrored config (.tag value :: later) state)
    (htag : Draft.tag config value draft = (.ok (), after))
    (hencode : Header.encode config.tagOptions value = .ok header)
    (hinput : state.input = header ++ rest) :
    ∃ next, Answers [.readTag] state [.tag (value.asRead config.tagOptions)] next ∧
      next.input = rest ∧ after.Mirrored config later next := by
  obtain ⟨_, counted, nesting, -, helement, henter, rfl⟩ := tag_eq_ok htag
  rw [Nesting.enterTag] at henter
  cases hopens : value.opens? with
  | none =>
      rw [hopens] at henter
      cases henter
      obtain ⟨hfirst, hmore⟩ := Writer.directCount_value (.tag value) later
        (by simp [Writer.Call.effect, Tag.isCompound, hopens])
      obtain ⟨middle, hmiddle, hnesting⟩ := hmirrored.nesting.element
        (fun level => directCount level later) hfirst hmore helement
      refine ⟨{ state with input := rest, nesting := middle },
        readTag hmirrored.options hencode hinput hmiddle ?_, rfl, hmirrored.options, ?_⟩
      · rw [Nesting.enterTag, Tag.opens_asRead hversion, hopens]
      · rw [nesting_append]
        exact hnesting
  | some opened =>
      obtain ⟨kind, count⟩ := opened
      rw [hopens] at henter
      obtain ⟨mirrored, hanswers, hnesting⟩ := hmirrored.enter
        (by simp [Writer.Call.effect, Tag.isCompound, hopens]) hencode
        ((Tag.opens_asRead hversion value).trans hopens) rfl hinput helement henter
      refine ⟨_, hanswers, rfl, hmirrored.options, ?_⟩
      rw [nesting_append]
      exact hnesting

theorem bytes {payload : Bytes} (hmirrored : draft.Mirrored config (.bytes payload :: later) state)
    (hbytes : Draft.bytes config payload draft = (.ok (), after))
    (hinput : state.input = payload ++ rest) :
    ∃ next, Answers [.readBytes payload.length] state [.bytes payload] next ∧
      next.input = rest ∧ after.Mirrored config later next := by
  obtain ⟨nesting, hnesting, rfl⟩ := bytes_eq_ok hbytes
  obtain ⟨mirrored, htaken, hlater⟩ := hmirrored.nesting.bytes hnesting
  have hread := Reader.State.readBytes_ok hinput htaken
  have hkept : Mirrored config (.bytes payload :: later)
      (Draft.append payload { draft with nesting })
      { state with input := rest, nesting := mirrored } :=
    ⟨hmirrored.options, by rw [nesting_append]; exact hlater⟩
  exact ⟨_, .readBytes hread, rfl, hkept.shift fun level => Writer.directCount_none rfl level⟩

theorem leave {nesting : Nesting} (hmirrored : draft.Mirrored config (call :: later) state)
    (hclosing : call.effect = .closing) (hleave : draft.nesting.leave kind = .ok nesting) :
    ∃ next, Answers [.leave kind] state [.done] next ∧ next.input = state.input ∧
      next.options = config.tagOptions ∧
      Nesting.Mirrors (fun level => directCount level later) nesting next.nesting := by
  obtain ⟨hfirst, hmore⟩ := Writer.directCount_closing call later hclosing
  obtain ⟨mirrored, hleft, hnesting⟩ := hmirrored.nesting.leave
    (fun level => directCount level later) hfirst hmore hleave
  exact ⟨{ state with nesting := mirrored }, .leave (Reader.State.track_ok hleft), rfl,
    hmirrored.options, hnesting⟩

theorem finishCompound (hmirrored : draft.Mirrored config (.finishCompound kind :: later) state)
    (hfinish : Draft.finishCompound kind draft = (.ok (), after)) :
    ∃ next, Answers [.leave kind] state [.done] next ∧ next.input = state.input ∧
      after.Mirrored config later next := by
  obtain ⟨layers, nesting, -, hleave, rfl⟩ := finishCompound_eq_ok hfinish
  obtain ⟨next, hanswers, hinput, hoptions, hnesting⟩ := hmirrored.leave rfl hleave
  exact ⟨next, hanswers, hinput, hoptions, hnesting⟩

theorem completeBuild (hmirrored : draft.Mirrored config (.completeBuild kind :: later) state)
    (hcomplete : Draft.completeBuild config kind draft = (.ok (), after)) :
    ∃ next, Answers [.leave kind] state [.done] next ∧ next.input = state.input ∧
      after.Mirrored config later next := by
  obtain ⟨top, outer, header, nesting, -, -, -, -, hleave, rfl⟩ := completeBuild_eq_ok hcomplete
  obtain ⟨next, hanswers, hinput, hoptions, hnesting⟩ := hmirrored.leave rfl hleave
  refine ⟨next, hanswers, hinput, hoptions, ?_⟩
  rw [nesting_append]
  exact hnesting

theorem beginBuild (hmirrored : draft.Mirrored config (.beginBuild kind :: later) state)
    (hbegin : Draft.beginBuild config kind draft = (.ok (), after))
    (hkind : kind.holdsBytes = false)
    (hheads : Builder.Heads config.tagOptions kind (directCount 0 later) header)
    (hinput : state.input = header ++ rest) :
    ∃ replies next, Writer.Call.Echoed later (.beginBuild kind) replies ∧
      Answers [.readTag] state replies next ∧ next.input = rest ∧
      after.Mirrored config later next := by
  obtain ⟨counted, nesting, helement, hpush, rfl⟩ := beginBuild_eq_ok hbegin
  rcases hheads.tag with ⟨hmap, count, hcount, hencode⟩ | ⟨rfl, pairs, hpairs, hencode⟩
  · obtain rfl : kind = .array := by cases kind <;> first | rfl | contradiction
    obtain ⟨mirrored, hanswers, hnesting⟩ := hmirrored.enter rfl hencode rfl
      (by rw [hcount]; simp [Frame.settled]) hinput helement hpush
    exact ⟨_, _, .array hcount, hanswers, rfl, hmirrored.options, hnesting⟩
  · obtain ⟨mirrored, hanswers, hnesting⟩ := hmirrored.enter rfl hencode rfl
      (by rw [hpairs]; simp [Frame.settled]) hinput helement hpush
    exact ⟨_, _, .map hpairs, hanswers, rfl, hmirrored.options, hnesting⟩

theorem payload {content : Bytes} {tag : UInt32 → Tag}
    (hversion : config.tagOptions.version = .v5)
    (hmirrored : draft.Mirrored config (call :: later) state) (hvalue : call.effect = .value)
    (htag : ∀ length, (tag length).isCompound = true)
    (hpayload : Draft.payload config tag kind content draft = (.ok (), after))
    (hencode : Header.encode config.tagOptions (tag (UInt32.ofNat content.length)) = .ok header)
    (hinput : state.input = header ++ content ++ rest) :
    ∃ next, Answers [.readTag, .readBytes content.length, .leave kind] state
        [.tag ((tag (UInt32.ofNat content.length)).asRead config.tagOptions), .bytes content, .done]
        next ∧ next.input = rest ∧ after.Mirrored config later next := by
  obtain ⟨-, first, second, hfirst, hsecond, hlast⟩ := payload_eq_ok hpayload
  rw [List.append_assoc] at hinput
  have hwhole : draft.Mirrored config (.tag (tag (UInt32.ofNat content.length)) ::
      .bytes content :: .finishCompound kind :: later) state :=
    hmirrored.shift fun level => (Writer.directCount_payload (htag _) hvalue level).symm
  obtain ⟨inside, hopened, hinside, hbehind⟩ := hwhole.tag hversion hfirst hencode hinput
  obtain ⟨filled, hfilled, hleft, hbefore⟩ := hbehind.bytes hsecond hinside
  obtain ⟨next, hclosed, hrest, hafter⟩ := hbefore.finishCompound hlast
  exact ⟨next, hopened.append (hfilled.append hclosed), hrest.trans hleft, hafter⟩

theorem finish (hmirrored : draft.Mirrored config (.finish :: later) state)
    (hfinish : Draft.finish draft = (.ok (), after)) :
    Answers [.finish] state [.done] state ∧ after.Mirrored config later state := by
  obtain ⟨rfl, -, hframes⟩ := finish_eq_ok hfinish
  refine ⟨.finish ?_, hmirrored.shift fun level => Writer.directCount_none rfl level⟩
  rw [Reader.State.finish, Attempt.get_bind, hmirrored.nesting.checkClosed hframes]
  rfl

/-- A call is echoed, and the reader goes on where the writer does. -/
theorem perform {chunk : Bytes} (hversion : config.tagOptions.version = .v5)
    (hmirrored : draft.Mirrored config (call :: later) state)
    (hperform : Draft.perform config call draft = (.ok (), after))
    (hwrites : call.Writes config.tagOptions later chunk) (hinput : state.input = chunk ++ rest) :
    ∃ replies next, call.Echoed later replies ∧ Answers call.replay state replies next ∧
      next.input = rest ∧ after.Mirrored config later next := by
  cases hwrites with
  | tag hencode =>
      obtain ⟨next, hanswers, hnext⟩ := hmirrored.tag hversion hperform hencode hinput
      exact ⟨_, next, .tag (Tag.bare_asRead hversion _), hanswers, hnext⟩
  | bytes =>
      obtain ⟨next, hanswers, hnext⟩ := hmirrored.bytes hperform hinput
      exact ⟨_, next, .bytes _, hanswers, hnext⟩
  | @str text _ hlength hencode =>
      have hword : (UInt32.ofNat (utf8 text).length).toNat = (utf8 text).length :=
        Nat.mod_eq_of_lt hlength
      obtain ⟨next, hanswers, hnext⟩ :=
        hmirrored.payload hversion rfl (fun _ => rfl) hperform hencode hinput
      exact ⟨_, next, .str hword, hanswers, hnext⟩
  | @bin content _ hlength hencode =>
      have hword : (UInt32.ofNat content.length).toNat = content.length :=
        Nat.mod_eq_of_lt hlength
      obtain ⟨next, hanswers, hnext⟩ :=
        hmirrored.payload hversion rfl (fun _ => rfl) hperform hencode hinput
      simp only [Tag.asRead, hversion] at hanswers
      exact ⟨_, next, .bin hword, hanswers, hnext⟩
  | @ext type content _ hlength hencode =>
      have hword : (UInt32.ofNat content.length).toNat = content.length :=
        Nat.mod_eq_of_lt hlength
      obtain ⟨next, hanswers, hnext⟩ :=
        hmirrored.payload hversion rfl (fun _ => rfl) hperform hencode hinput
      exact ⟨_, next, .ext hword, hanswers, hnext⟩
  | beginBuild hkind hheads => exact hmirrored.beginBuild hperform hkind hheads hinput
  | finishCompound kind =>
      obtain ⟨next, hanswers, hsame, hnext⟩ := hmirrored.finishCompound hperform
      exact ⟨_, next, .finishCompound kind, hanswers, hsame.trans hinput, hnext⟩
  | completeBuild kind =>
      obtain ⟨next, hanswers, hsame, hnext⟩ := hmirrored.completeBuild hperform
      exact ⟨_, next, .completeBuild kind, hanswers, hsame.trans hinput, hnext⟩
  | flush =>
      cases hperform
      exact ⟨_, state, .flush, .none, hinput,
        hmirrored.shift fun level => Writer.directCount_none rfl level⟩
  | finish =>
      obtain ⟨hanswers, hnext⟩ := hmirrored.finish hperform
      exact ⟨_, state, .finish, hanswers, hinput, hnext⟩

theorem run {done : List Writer.Call} (hversion : config.tagOptions.version = .v5)
    (hmirrored : draft.Mirrored config (done ++ later) state)
    (hrun : Draft.run config done draft = (.ok (), after))
    (hforetold : Foretold config.tagOptions (done ++ later) state.input) :
    ∃ replies next, Echoes later done replies ∧
      Answers (done.flatMap Writer.Call.replay) state replies next ∧
      Foretold config.tagOptions later next.input ∧ after.Mirrored config later next := by
  induction done generalizing draft state with
  | nil =>
      cases hrun
      exact ⟨[], state, .none, .none, hforetold, hmirrored⟩
  | cons call done ih =>
      obtain ⟨_, middle, hperform, hrest⟩ := Attempt.bind_eq_ok hrun
      generalize hinput : state.input = text at hforetold
      cases hforetold with
      | call hcall hlater =>
          obtain ⟨first, between, hechoed, hanswers, hleft, hmiddle⟩ :=
            hmirrored.perform hversion hperform hcall hinput
          rw [← hleft] at hlater
          obtain ⟨replies, next, hechoes, hothers, hnext⟩ := ih hmiddle hrest hlater
          exact ⟨_, next, .call hechoed hechoes, hanswers.append hothers, hnext⟩

end Draft.Mirrored

/-- What calls have left in a sink is foretold of them. -/
theorem Writer.foretold {config : Config} {sink : Sink} {calls : List Call}
    {writer finished : Writer} (hreplayable : ∀ call ∈ calls, call.Replayable)
    (hcreate : create config sink = .ok writer)
    (hrun : run (calls ++ [.finish]) writer = (.ok (), finished)) :
    ∃ output, finished.sink.bytes = sink.bytes ++ output ∧
      Foretold config.tagOptions (calls ++ [.finish]) output := by
  have hall : ∀ call ∈ calls ++ [Call.finish], call.Replayable := by
    intro call hcall
    rcases List.mem_append.mp hcall with hcall | hcall
    · exact hreplayable call hcall
    · rw [List.mem_singleton.mp hcall]
      trivial
  obtain ⟨last, hdrafted, -, hbytes⟩ := drafted hcreate hrun
  have hlayers : last.layers = [] := by
    rw [Draft.run_append] at hdrafted
    obtain ⟨_, middle, -, hlast⟩ := Attempt.bind_eq_ok hdrafted
    obtain ⟨_, _, hfinish, hend⟩ := Attempt.bind_eq_ok hlast
    cases hend
    obtain ⟨rfl, hlayers, -⟩ := Draft.finish_eq_ok hfinish
    exact hlayers
  obtain ⟨before, output, hbefore, hforetold, htext⟩ :=
    Draft.foretold_of_run hall hdrafted hlayers
  cases hbefore
  exact ⟨output, (hbytes calls rfl).trans htext, hforetold⟩

namespace Reader

variable {config : Config} {sink : Sink} {calls done later : List Writer.Call}
  {writer written finished : Writer} {output : Bytes}

/-- A reader over what was foretold goes along with the writer. -/
theorem State.ofBytes_replays (hversion : config.version = .v5)
    (hread : config.readTracking = true) (hwrite : config.writeTracking = true)
    (hcreate : Writer.create config sink = .ok writer)
    (hrun : Writer.run done writer = (.ok (), written))
    (hforetold : Foretold config.tagOptions (done ++ later) output) :
    ∃ replies next, Echoes later done replies ∧
      Answers (done.flatMap Writer.Call.replay) (.ofBytes config output) replies next ∧
      Foretold config.tagOptions later next.input ∧ next.nesting.depth = written.depth := by
  have hoptions : config.tagOptions.version = .v5 := by
    simp [Config.tagOptions, Config.effectiveVersion, hversion]
  have hmirrored : (Draft.initial config sink).Mirrored config (done ++ later)
      (.ofBytes config output) :=
    ⟨rfl, hwrite, by rw [ofBytes, hread, Draft.initial, hwrite]; rfl⟩
  obtain ⟨draft, hdraft, hdepth, -⟩ := Writer.drafted hcreate hrun
  obtain ⟨replies, next, hechoes, hanswers, hrest, hnext⟩ :=
    hmirrored.run hoptions hdraft hforetold
  exact ⟨replies, next, hechoes, hanswers, hrest, hnext.nesting.depth.trans hdepth.symm⟩

theorem perform_atEnd_nothing {state : State Bytes} (hinput : state.input = []) :
    perform .atEnd { state } = (.ok (.bool true), { state }) := by
  refine Latch.call_of_ok ?_
  rw [State.perform, Attempt.bind_of_ok (State.atEnd_eq state), hinput]
  rfl

/-- Whatever a tracked writer accepts, a tracked reader accepts in turn: it finds every header,
payload and end as it was written, is as deep after every step, and is at the end in the end. -/
theorem run_replay (hvalid : config.Valid) (hversion : config.version = .v5)
    (hreader : config.reader = true) (hread : config.readTracking = true)
    (hwrite : config.writeTracking = true) (hreplayable : ∀ call ∈ calls, call.Replayable)
    (hcreate : Writer.create config sink = .ok writer)
    (hrun : Writer.run (calls ++ [.finish]) writer = (.ok (), finished)) :
    ∃ output, finished.sink.bytes = sink.bytes ++ output ∧
      ∀ source : Source, source.Steady → source.content = output →
        ∃ reader, create config source = .ok reader ∧
          (∀ done later, calls ++ [.finish] = done ++ later →
            ∃ written replies read, Writer.run done writer = (.ok (), written) ∧
              reader.run (done.flatMap Writer.Call.replay) = (replies.map .ok, read) ∧
              Echoes later done replies ∧ read.depth = written.depth) ∧
          (perform .atEnd
            (reader.run ((calls ++ [Writer.Call.finish]).flatMap Writer.Call.replay)).2).1 =
              .ok (.bool true) := by
  obtain ⟨output, houtput, hforetold⟩ := Writer.foretold hreplayable hcreate hrun
  refine ⟨output, houtput, fun source hsteady hcontent => ?_⟩
  obtain ⟨state, hcreated, halike⟩ := create_alike hvalid hreader hsteady
  rw [hcontent] at halike
  have hfollows : Follows { state } { state := .ofBytes config output } := ⟨halike, rfl⟩
  refine ⟨{ state }, hcreated, fun done later hsplit => ?_, ?_⟩
  · rw [hsplit, Writer.run_append] at hrun
    rw [hsplit] at hforetold
    obtain ⟨_, written, hdone, -⟩ := Attempt.bind_eq_ok hrun
    obtain ⟨replies, next, hechoes, hanswers, -, hdepth⟩ :=
      State.ofBytes_replays hversion hread hwrite hcreate hdone hforetold
    obtain ⟨hreplies, hstate⟩ := hfollows.run_eq (done.flatMap Writer.Call.replay)
    rw [hanswers] at hreplies hstate
    refine ⟨written, replies, _, hdone, Prod.ext hreplies rfl, hechoes, ?_⟩
    exact (congrArg Nesting.depth hstate.state.nesting).trans hdepth
  · rw [← List.append_nil (calls ++ [Writer.Call.finish])] at hforetold
    obtain ⟨replies, next, -, hanswers, hrest, -⟩ :=
      State.ofBytes_replays hversion hread hwrite hcreate hrun hforetold
    obtain ⟨-, hstate⟩ :=
      hfollows.run_eq ((calls ++ [Writer.Call.finish]).flatMap Writer.Call.replay)
    rw [hanswers] at hstate
    have hempty : next.input = [] := by
      generalize next.input = rest at hrest
      cases hrest
      rfl
    obtain ⟨hreply, -⟩ := perform_agrees Buffered.simulates .atEnd _ _ hstate
    rw [hreply, perform_atEnd_nothing hempty]

/-- A built map under a ceiling of three levels, read back a byte at a time. -/
theorem run_replay_built :
    ∃ writer finished, Writer.create { dynamicAlloc := false, maxDepthWithoutAlloc := 3 } {} =
        .ok writer ∧
      Writer.run ([.beginBuild .map, .tag (.int 7), .beginBuild .array, .bin [1],
        .tag (.rawFloat 0), .completeBuild .array, .completeBuild .map] ++ [.finish]) writer =
          (.ok (), finished) ∧
      finished.sink.bytes = [0x81, 7, 0x92, 0xc4, 1, 1, 0xca, 0, 0, 0, 0] ∧
      ∃ reader, create { dynamicAlloc := false, maxDepthWithoutAlloc := 3 } {
          deliveries := [.chunk [0x81, 7, 0x92, 0xc4, 1, 1, 0xca, 0, 0, 0, 0]]
          maxRead? := some 1 } = .ok reader ∧
        ∃ replies read, reader.run [.readTag, .readTag, .readTag, .readTag, .readBytes 1,
            .leave .bin] = (replies.map .ok, read) ∧
          Echoes [.tag (.rawFloat 0), .completeBuild .array, .completeBuild .map, .finish]
            [.beginBuild .map, .tag (.int 7), .beginBuild .array, .bin [1]] replies ∧
          read.depth = 2 := by
  have hcreate : Writer.create { dynamicAlloc := false, maxDepthWithoutAlloc := 3 } {} = .ok _ :=
    rfl
  obtain ⟨-, hshows⟩ := Draft.Shows.create (.plain #[]) hcreate
  have hdraft : Draft.run { dynamicAlloc := false, maxDepthWithoutAlloc := 3 }
      ([.beginBuild .map, .tag (.int 7), .beginBuild .array, .bin [1], .tag (.rawFloat 0),
        .completeBuild .array, .completeBuild .map] ++ [.finish])
      (Draft.initial { dynamicAlloc := false, maxDepthWithoutAlloc := 3 } {}) = (.ok (), {
        nesting := { limit := some 3 }
        text := [0x81, 7, 0x92, 0xc4, 1, 1, 0xca, 0, 0, 0, 0] }) := by
    simp only [Draft.run, List.cons_append, List.nil_append]
    rfl
  obtain ⟨last, hrun, -⟩ := hshows.run_ok hdraft
  obtain ⟨draft, hsame, -, hbytes⟩ := Writer.drafted hcreate hrun
  cases hdraft.symm.trans hsame
  have htext := hbytes _ rfl
  have hreplayable : ∀ call ∈ [Writer.Call.beginBuild .map, .tag (.int 7), .beginBuild .array,
      .bin [1], .tag (.rawFloat 0), .completeBuild .array, .completeBuild .map],
      call.Replayable := by
    intro call hcall
    simp only [List.mem_cons, List.not_mem_nil, or_false] at hcall
    rcases hcall with rfl | rfl | rfl | rfl | rfl | rfl | rfl <;> first | rfl | trivial
  obtain ⟨output, houtput, hreads⟩ :=
    run_replay (by decide) rfl rfl rfl rfl hreplayable hcreate hrun
  obtain rfl := houtput.symm.trans htext
  have hsteady : Source.Steady {
      deliveries := [.chunk [0x81, 7, 0x92, 0xc4, 1, 1, 0xca, 0, 0, 0, 0]]
      maxRead? := some 1 } := by
    refine ⟨fun delivery hmember => ?_, by decide⟩
    rw [List.mem_singleton.mp hmember]
    trivial
  obtain ⟨reader, hreader, hsteps, -⟩ := hreads _ hsteady rfl
  refine ⟨_, _, hcreate, hrun, htext, reader, hreader, ?_⟩
  obtain ⟨written, replies, read, hwritten, hreplies, hechoes, hdepth⟩ := hsteps
    [.beginBuild .map, .tag (.int 7), .beginBuild .array, .bin [1]]
    [.tag (.rawFloat 0), .completeBuild .array, .completeBuild .map, .finish] rfl
  obtain ⟨inside, hinside, hdeep, -⟩ := Writer.drafted hcreate hwritten
  cases hinside
  exact ⟨replies, read, hreplies, hechoes, hdepth.trans hdeep⟩

end Reader
end MessagePack
