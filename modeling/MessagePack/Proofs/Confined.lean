import MessagePack.Proofs.Agreement
import MessagePack.Proofs.Levels

/-!
Readers in a confined space. Whatever the room a reader has, it comes to the value of a complete
message or to the first thing that is wrong in it.
-/

namespace MessagePack
namespace Attempt

variable {σ α β : Type} {state middle after : σ}

/-- The attempt comes to the outcome, and leaves that state behind if it succeeds. -/
def Yields (attempt : Attempt σ α) (state : σ) (outcome : Except Error α) (after : σ) : Prop :=
  match outcome with
  | .ok value => attempt state = (.ok value, after)
  | .error error => (attempt state).1 = .error error

namespace Yields

variable {attempt : Attempt σ α} {outcome : Except Error α}

theorem of_run {first : Attempt σ β} {next : β → Attempt σ α} {value : β}
    (hfirst : first state = (.ok value, middle))
    (hyields : (next value).Yields middle outcome after) :
    (first >>= next).Yields state outcome after := by
  unfold Yields at hyields ⊢
  rwa [bind_of_ok hfirst]

theorem bind {next : α → Attempt σ β} {later : α → Except Error β}
    (hattempt : attempt.Yields state outcome middle)
    (hnext : ∀ value, outcome = .ok value → (next value).Yields middle (later value) after) :
    (attempt >>= next).Yields state (outcome >>= later) after := by
  cases outcome with
  | ok value => exact of_run hattempt (hnext value rfl)
  | error error =>
      rcases hrun : attempt state with ⟨result, last⟩
      have hresult : (attempt state).1 = .error error := hattempt
      rw [hrun] at hresult
      show ((attempt >>= next) state).1 = .error error
      cases hresult
      rw [bind_of_error hrun]

theorem result (hyields : attempt.Yields state outcome after) : (attempt state).1 = outcome := by
  cases outcome with
  | ok value => exact congrArg Prod.fst (show attempt state = (.ok value, after) from hyields)
  | error error => exact hyields

end Yields
end Attempt

/-- No payload is larger than that. -/
inductive Message.Small (limit : Nat) : Message → Prop
  | node {header : Bytes} {tag : Tag} {payload : Bytes} {children : List Message}
      (hpayload : payload.length ≤ limit) (hchildren : ∀ child ∈ children, Small limit child) :
      Small limit (.node header tag payload children)

theorem Message.length_le_text_of_mem {message : Message} {messages : List Message}
    (hmember : message ∈ messages) : message.bytes.length ≤ (text messages).length := by
  induction messages with
  | nil => cases hmember
  | cons first messages ih =>
      rw [text, List.length_append]
      rcases List.mem_cons.mp hmember with rfl | hmember
      · exact Nat.le_add_right _ _
      · exact Nat.le_trans (ih hmember) (Nat.le_add_left _ _)

/-- No payload is larger than the message. -/
theorem Message.Complete.small {options : TagOptions} {message : Message} {limit : Nat}
    (hcomplete : message.Complete options) (hlimit : message.bytes.length ≤ limit) :
    message.Small limit := by
  induction hcomplete with
  | node _ _ _ _ ih =>
      rw [bytes, List.length_append, List.length_append] at hlimit
      refine .node (by omega) fun child hchild => ih child hchild ?_
      have hless := length_le_text_of_mem hchild
      omega

namespace Nesting

variable {nesting : Nesting} {tag : Tag} {inner : Room}

theorem enterTag_eq (nesting : Nesting) (tag : Tag) :
    (nesting.charged 1).enterTag tag =
      (nesting.room.entered tag).map fun _ => nesting.met tag := by
  cases hopens : tag.opens? with
  | none => simp [enterTag, met, Room.entered, Tag.isCompound, hopens, Except.map]
  | some opened =>
      simp [enterTag, met, enter, push_eq, Room.entered, Tag.isCompound, hopens]

theorem room_met (hentered : nesting.room.entered tag = .ok inner) :
    (nesting.met tag).room = inner := by
  cases hopens : tag.opens? with
  | none =>
      simp only [Room.entered, Tag.isCompound, hopens] at hentered
      cases hentered
      simp only [met, hopens, room_charged]
  | some opened =>
      simp only [Room.entered, Tag.isCompound, hopens] at hentered
      simp only [met, hopens]
      exact room_pushed (by rw [room_charged]; exact hentered) _

end Nesting

namespace Reader.State

variable {state : State Bytes} {messages : List Message} {header rest : Bytes} {tag : Tag}
  {fuel : Nat}

/-- The messages are there to be read, and the fuel is enough for them. -/
structure Facing (messages : List Message) (rest : Bytes) (fuel : Nat) (state : State Bytes) :
    Prop where
  accepts : state.nesting.Accepts messages.length
  complete : ∀ message ∈ messages, message.Complete state.options
  small : ∀ message ∈ messages, message.Small state.maxAlloc
  input : state.input = Message.text messages ++ rest
  fuel : (Message.text messages).length ≤ fuel

theorem Facing.head {message : Message}
    (hfacing : state.Facing (message :: messages) rest fuel) :
    state.Facing [message] (Message.text messages ++ rest) fuel := by
  have hfuel := hfacing.fuel
  have htext : Message.text [message] = message.bytes := List.append_nil _
  refine ⟨hfacing.accepts.mono (by simp), fun other hother => ?_, fun other hother => ?_, ?_, ?_⟩
  · rw [List.mem_singleton.mp hother]
    exact hfacing.complete message (.head _)
  · rw [List.mem_singleton.mp hother]
    exact hfacing.small message (.head _)
  · rw [hfacing.input, htext, Message.text, List.append_assoc]
  · rw [Message.text, List.length_append] at hfuel
    rw [htext]
    omega

theorem Facing.tail {message : Message}
    (hfacing : state.Facing (message :: messages) rest fuel) :
    (state.passed 1 (Message.text messages ++ rest)).Facing messages rest fuel := by
  have hfuel := hfacing.fuel
  have haccepts := hfacing.accepts
  rw [List.length_cons, Nat.add_comm] at haccepts
  refine ⟨haccepts.charged, fun other hother => hfacing.complete other (.tail _ hother),
    fun other hother => hfacing.small other (.tail _ hother), rfl, ?_⟩
  rw [Message.text, List.length_append] at hfuel
  omega

theorem readTag_entered {inner : Room} (haccepts : state.nesting.Accepts 1)
    (hdecode : Header.decode state.options header = .ok (tag, header.length))
    (hinput : state.input = header ++ rest)
    (hentered : state.nesting.room.entered tag = .ok inner) :
    readTag state =
      (.ok tag, { state with input := rest, nesting := state.nesting.met tag }) := by
  refine readTag_of_entered hdecode hinput haccepts.element ?_
  rw [Nesting.enterTag_eq, hentered]
  rfl

theorem readTag_refused {error : Error} (haccepts : state.nesting.Accepts 1)
    (hdecode : Header.decode state.options header = .ok (tag, header.length))
    (hinput : state.input = header ++ rest)
    (hentered : state.nesting.room.entered tag = .error error) :
    ∃ after, readTag state = (.error error, after) := by
  have henter : (state.nesting.charged 1).enterTag tag = .error error := by
    rw [Nesting.enterTag_eq, hentered]
    rfl
  refine ⟨{ state with nesting := state.nesting.charged 1 }, ?_⟩
  rw [readTag, nextTag, Attempt.bind_of_ok (header_ok hdecode hinput)]
  simp only [id_eq]
  rw [Attempt.bind_of_ok (track_ok haccepts.element)]
  exact Attempt.bind_of_error (Attempt.update_of_error henter)

end Reader.State

namespace Value

open Reader.State

variable {state : Reader.State Bytes} {messages : List Message} {fuel n : Nat}
  {kind : Compound}

/-- The attempt reads one message. -/
def ReadsOne (fuel : Nat) (attempt : Attempt (Reader.State Bytes) Value) : Prop :=
  ∀ (state : Reader.State Bytes) (message : Message) (rest : Bytes),
    state.Facing [message] rest fuel →
    attempt.Yields state (message.valueIn state.nesting.room) (state.passed 1 rest)

variable {attempt : Attempt (Reader.State Bytes) Value}

theorem ReadsOne.collect (hreads : ReadsOne fuel attempt) {rest : Bytes}
    (hfacing : state.Facing messages rest fuel) :
    (Value.collect attempt messages.length #[]).Yields state
      (Message.valuesIn state.nesting.room messages) (state.passed messages.length rest) := by
  induction messages generalizing state with
  | nil =>
      have hinput : state.input = rest := hfacing.input
      show (_, state) = (_, state.passed 0 rest)
      rw [← hinput, passed_zero]
  | cons message messages ih =>
      rw [List.length_cons, collect_succ, Message.valuesIn]
      refine (hreads state message _ hfacing.head).bind fun first _ => ?_
      have hothers := ih hfacing.tail
      rw [room_passed, passed_passed, Nat.add_comm] at hothers
      exact hothers.bind fun found _ => rfl

theorem ReadsOne.collect_pairs (hreads : ReadsOne fuel attempt) {rest : Bytes}
    (hlength : messages.length = 2 * n) (hfacing : state.Facing messages rest fuel) :
    (Value.collect (readPair attempt) n #[]).Yields state
      ((Message.valuesIn state.nesting.room messages).map paired)
      (state.passed (2 * n) rest) := by
  induction n generalizing state messages with
  | zero =>
      obtain rfl := List.eq_nil_of_length_eq_zero hlength
      have hinput : state.input = rest := hfacing.input
      show (_, state) = (_, state.passed 0 rest)
      rw [← hinput, passed_zero]
      rfl
  | succ n ih =>
      match messages, hlength, hfacing with
      | key :: value :: messages, hlength, hfacing =>
          have hbehind : messages.length = 2 * n := by
            simp only [List.length_cons] at hlength
            omega
          -- both sides go through the messages two by two
          have hsame : (Message.valuesIn state.nesting.room (key :: value :: messages)).map
              paired = (do
                let first ← (do
                  let key ← key.valueIn state.nesting.room
                  let value ← value.valueIn state.nesting.room
                  return (key, value))
                let rest ← (Message.valuesIn state.nesting.room messages).map paired
                return first :: rest) := by
            rw [Message.valuesIn, Message.valuesIn]
            cases key.valueIn state.nesting.room with
            | error error => rfl
            | ok key =>
                cases value.valueIn state.nesting.room with
                | error error => rfl
                | ok value => cases Message.valuesIn state.nesting.room messages <;> rfl
          rw [collect_succ, hsame]
          have hvalue := hreads _ value _ hfacing.tail.head
          have hothers := ih hbehind hfacing.tail.tail
          rw [room_passed, passed_passed] at hvalue
          rw [room_passed, room_passed, passed_passed, passed_passed,
            show 1 + 1 + 2 * n = 2 * (n + 1) by omega] at hothers
          have hpair : (readPair attempt).Yields state (do
              let key ← key.valueIn state.nesting.room
              let value ← value.valueIn state.nesting.room
              return (key, value)) _ :=
            (hreads state key _ hfacing.head).bind fun first _ => hvalue.bind fun second _ => rfl
          refine hpair.bind fun first _ => ?_
          refine hothers.bind fun found _ => ?_
          rfl

/-- The reader is behind a header that states the tag. -/
structure Behind (fuel : Nat) (tag : Tag) (outer : Nesting) (payload : Bytes)
    (children : List Message) (rest : Bytes) (state : Reader.State Bytes) : Prop where
  nesting : state.nesting = outer.met tag
  input : state.input = payload ++ (Message.text children ++ rest)
  length : payload.length = tag.payloadLength?.getD 0
  count : children.length = tag.childCount?.getD 0
  complete : ∀ child ∈ children, child.Complete state.options
  limit : payload.length ≤ state.maxAlloc
  small : ∀ child ∈ children, child.Small state.maxAlloc
  fuel : (Message.text children).length ≤ fuel

/-- Behind such a header, the attempt reads what the header announces. -/
def Follows (fuel : Nat) (tag : Tag) (attempt : Attempt (Reader.State Bytes) Value) : Prop :=
  ∀ (outer : Nesting) (inner : Room) (state : Reader.State Bytes) (header payload rest : Bytes)
    (children : List Message), Behind fuel tag outer payload children rest state →
    outer.room.entered tag = .ok inner →
    attempt.Yields state ((Message.node header tag payload children).valueIn outer.room)
      { state with input := rest, nesting := outer.charged 1 }

theorem ReadsOne.of_follows {body : Tag → Attempt (Reader.State Bytes) Value}
    (hbody : ∀ tag, Follows fuel tag (body tag)) : ReadsOne (fuel + 1) (readTag >>= body) := by
  intro state message rest hfacing
  have hfuel := hfacing.fuel
  cases hfacing.complete message (.head _) with
  | @node header tag payload children hheader hpayload hcount hchildren =>
      cases hfacing.small _ (.head _) with
      | node hlimit hsmall =>
          have hpos := Header.decode_size_pos hheader
          simp only [Message.text, Message.bytes, List.append_nil, List.length_append] at hfuel
          have hinput : state.input = header ++ (payload ++ (Message.text children ++ rest)) := by
            rw [hfacing.input]
            simp [Message.text, Message.bytes]
          cases hentered : state.nesting.room.entered tag with
          | error error =>
              obtain ⟨after, hread⟩ := readTag_refused hfacing.accepts hheader hinput hentered
              rw [Message.valueIn, hentered]
              show ((readTag >>= body) state).1 = .error error
              rw [Attempt.bind_of_error hread]
          | ok inner =>
              refine .of_run (readTag_entered hfacing.accepts hheader hinput hentered) ?_
              exact hbody tag state.nesting inner _ header payload rest children
                ⟨rfl, rfl, hpayload, hcount, hchildren, hlimit, hsmall, by omega⟩ hentered

variable {tag : Tag}

theorem Follows.scalar {found : Value} (hopens : tag.opens? = none)
    (hvalue : ∀ room header payload children,
      (Message.node header tag payload children).valueIn room =
        room.entered tag >>= fun _ => .ok found) : Follows fuel tag (pure found) := by
  intro outer inner state header payload rest children hbehind hentered
  have hpayload := hbehind.length
  have hcount := hbehind.count
  have hinput := hbehind.input
  have hnesting := hbehind.nesting
  rw [Tag.payloadLength_of_scalar hopens] at hpayload
  rw [Tag.childCount_of_scalar hopens] at hcount
  rw [List.eq_nil_of_length_eq_zero hpayload, List.eq_nil_of_length_eq_zero hcount] at hinput
  obtain rfl : state.input = rest := hinput
  simp only [Nesting.met, hopens] at hnesting
  rw [hvalue, hentered, ← hnesting]
  rfl

theorem Follows.payload {next : Bytes → Attempt (Reader.State Bytes) Value}
    {build : Bytes → Except Error Value} (hkind : kind.holdsBytes = true)
    (hopens : tag.opens? = some (kind, n)) (hlength : tag.payloadLength? = some n)
    (hvalue : ∀ room header payload children,
      (Message.node header tag payload children).valueIn room =
        room.entered tag >>= fun _ => build payload)
    (hnext : ∀ content, next content = (do
      let found ← Attempt.lift (build content)
      leave kind
      return found)) : Follows fuel tag (copyBytes n >>= next) := by
  intro outer inner state header payload rest children hbehind hentered
  have hpayload := hbehind.length
  have hcount := hbehind.count
  have hinput := hbehind.input
  have hnesting := hbehind.nesting
  rw [hlength] at hpayload
  rw [Tag.childCount_of_payload hlength] at hcount
  rw [List.eq_nil_of_length_eq_zero hcount] at hinput
  rw [Nesting.met_of_opens hopens] at hnesting
  obtain rfl : payload.length = n := hpayload
  rw [hvalue, hentered]
  refine .of_run (copyBytes_ok hkind hbehind.limit hinput hnesting) ?_
  show (next payload).Yields _ (build payload) _
  rw [hnext]
  cases build payload with
  | error error => rfl
  | ok found => exact .of_run rfl (.of_run (leave_ok rfl) rfl)

theorem Follows.elements {attempt : Attempt (Reader.State Bytes) α}
    {gather : Room → List Message → Except Error α} {build : α → Value}
    (hkind : kind.holdsBytes = false) (hopens : tag.opens? = some (kind, n))
    (hlength : tag.payloadLength? = none) (hchildren : tag.childCount? = some n)
    (hvalue : ∀ room header payload children,
      (Message.node header tag payload children).valueIn room =
        room.entered tag >>= fun inner => (gather inner children).map build)
    (hattempt : ∀ (state : Reader.State Bytes) (messages : List Message) (rest : Bytes),
      messages.length = n → state.Facing messages rest fuel →
        attempt.Yields state (gather state.nesting.room messages) (state.passed n rest)) :
    Follows fuel tag (do let found ← attempt; leave kind; return build found) := by
  intro outer inner state header payload rest children hbehind hentered
  have hpayload := hbehind.length
  have hcount := hbehind.count
  have hinput := hbehind.input
  have hroom : state.nesting.room = inner := by
    rw [hbehind.nesting]
    exact Nesting.room_met hentered
  have hnesting := hbehind.nesting
  rw [hlength] at hpayload
  rw [hchildren] at hcount
  rw [List.eq_nil_of_length_eq_zero hpayload] at hinput
  rw [Nesting.met_of_opens hopens] at hnesting
  obtain rfl : children.length = n := hcount
  have hfacing : state.Facing children rest fuel := by
    refine ⟨?_, hbehind.complete, hbehind.small, hinput, hbehind.fuel⟩
    rw [hnesting]
    exact Nesting.accepts_pushed hkind 0 _
  have hcharged : state.nesting.charged children.length =
      (outer.charged 1).pushed { kind, remaining := 0 } := by
    rw [hnesting]
    exact Nesting.charged_pushed
  have hgathered := hattempt state children rest rfl hfacing
  have hmap : (gather inner children).map build =
      gather inner children >>= fun found => .ok (build found) := by
    cases gather inner children <;> rfl
  rw [hroom] at hgathered
  rw [hvalue, hentered]
  show Attempt.Yields _ state ((gather inner children).map build) _
  rw [hmap]
  exact hgathered.bind fun found _ => .of_run (leave_ok hcharged) rfl

/-- Reading one value, by induction on the fuel. -/
theorem readWithin_readsOne (fuel : Nat) : ReadsOne fuel (readWithin fuel) := by
  induction fuel with
  | zero =>
      intro state message rest hfacing
      have hpos := (hfacing.complete message (.head _)).length_pos
      have hfuel := hfacing.fuel
      rw [Message.text, List.length_append] at hfuel
      omega
  | succ fuel ih =>
      refine .of_follows fun tag => ?_
      cases tag with
      | str length =>
          have hvalue : ∀ room header payload children,
              (Message.node header (.str length) payload children).valueIn room =
                room.entered (.str length) >>= fun _ => ofText payload :=
            fun _ _ _ _ => rfl
          have hread : Follows fuel (.str length) _ :=
            .payload rfl rfl rfl hvalue fun _ => rfl
          rwa [← readText_str] at hread
      | bin length => exact .payload rfl rfl rfl (fun _ _ _ _ => rfl) fun _ => rfl
      | ext type length => exact .payload rfl rfl rfl (fun _ _ _ _ => rfl) fun _ => rfl
      | array count =>
          refine .elements rfl rfl rfl rfl (fun _ _ _ _ => rfl) fun state messages rest hcount
            hfacing => ?_
          rw [← hcount]
          exact ih.collect hfacing
      | map pairs =>
          have hvalue : ∀ room header payload children,
              (Message.node header (.map pairs) payload children).valueIn room =
                room.entered (.map pairs) >>= fun inner =>
                  ((Message.valuesIn inner children).map paired).map .map := by
            intro room header payload children
            rw [Message.valueIn]
            refine bind_congr fun inner => ?_
            cases Message.valuesIn inner children <;> rfl
          exact .elements rfl rfl rfl rfl hvalue fun state messages rest hcount hfacing =>
            ih.collect_pairs hcount hfacing
      | _ => exact .scalar rfl fun _ _ _ _ => rfl

variable {config : Config} {message : Message} {source : Source}

theorem readToEnd_result (hcomplete : message.Complete config.tagOptions)
    (hsmall : message.Small config.maxAlloc) :
    (readToEnd (Reader.State.ofBytes config message.bytes)).1 =
      (message.valueIn (Reader.State.ofBytes config message.bytes).nesting.room).map
        fun value => (value, true) := by
  have htext : Message.text [message] = message.bytes := List.append_nil _
  have hfacing : (Reader.State.ofBytes config message.bytes).Facing [message] []
      (message.bytes.length + 1) := by
    refine ⟨accepts_ofBytes _ _ _, fun other hother => ?_, fun other hother => ?_, ?_, ?_⟩
    · rw [List.mem_singleton.mp hother]
      exact hcomplete
    · rw [List.mem_singleton.mp hother]
      exact hsmall
    · rw [htext, List.append_nil]
      rfl
    · rw [htext]
      exact Nat.le_succ _
  have hread : read.Yields (Reader.State.ofBytes config message.bytes) _ _ :=
    readWithin_readsOne _ _ _ _ hfacing
  rw [passed_ofBytes] at hread
  have hwhole : readToEnd.Yields (Reader.State.ofBytes config message.bytes)
      (message.valueIn (Reader.State.ofBytes config message.bytes).nesting.room >>= fun value =>
        .ok (value, true)) (Reader.State.ofBytes config []) :=
    hread.bind fun value _ => .of_run finish_ofBytes (.of_run (atEnd_eq _) rfl)
  rw [hwhole.result]
  cases message.valueIn (Reader.State.ofBytes config message.bytes).nesting.room <;> rfl

/-- What a reader comes to in the room that its configuration gives it. -/
theorem readWhole_result (hvalid : config.Valid) (hreader : config.reader = true)
    (hsteady : source.Steady) (hcomplete : message.Complete config.tagOptions)
    (hsmall : message.Small config.maxAlloc) (hcontent : source.content = message.bytes) :
    (Reader.create config source >>= readWhole) =
      (message.valueIn (Reader.State.ofBytes config message.bytes).nesting.room).map
        fun value => (value, true) := by
  obtain ⟨state, hcreate, halike⟩ := Reader.create_alike hvalid hreader hsteady
  rw [hcontent] at halike
  rw [hcreate, ← readToEnd_result hcomplete hsmall]
  show readWhole { state } = _
  rw [readWhole_eq]
  exact (readToEnd_alike _ _ halike).1

end Value
end MessagePack
