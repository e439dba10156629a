import MessagePack.Proofs.Attempt
import MessagePack.Proofs.Document
import MessagePack.Proofs.Nesting

/-!
Reading a byte string. A value is read exactly where a complete message starts, and it is the
value of that message.
-/

namespace MessagePack

/-- The nesting when a tag has been met. -/
def Nesting.met (tag : Tag) (nesting : Nesting) : Nesting :=
  match tag.opens? with
  | none => nesting.charged 1
  | some (kind, owed) => (nesting.charged 1).pushed { kind, remaining := owed }

theorem Nesting.met_of_opens {tag : Tag} {kind : Compound} {owed : Nat} {nesting : Nesting}
    (hopens : tag.opens? = some (kind, owed)) :
    nesting.met tag = (nesting.charged 1).pushed { kind, remaining := owed } := by
  simp only [met, hopens]

theorem Nesting.enterTag_charged {nesting : Nesting} (hroom : nesting.room = none) (tag : Tag) :
    (nesting.charged 1).enterTag tag = .ok (nesting.met tag) := by
  cases hopens : tag.opens? with
  | none => simp only [enterTag, met, hopens]
  | some opened =>
      simp only [enterTag, met, hopens, enter, push_eq, room_charged, hroom]
      rfl

namespace Reader.State

variable {state after : State Bytes} {tag : Tag}

/-- Behind `count` more elements, with this much input left. -/
def passed (count : Nat) (input : Bytes) (state : State Bytes) : State Bytes :=
  { state with input, nesting := state.nesting.charged count }

theorem ahead_ok {n : Nat} (hn : n ≤ state.input.length) :
    onInput (ByteInput.ahead n) state = (.ok (state.input.take n), state) := by
  simp only [onInput, Attempt.within, ByteInput.ahead, Bytes.ahead,
    if_pos ((hasAtLeast_iff n state.input).mpr hn)]

theorem ahead_short {n : Nat} (hshort : state.input.length < n) :
    onInput (ByteInput.ahead n) state = (.error (.truncated n state.input.length), state) := by
  have hfew : ¬hasAtLeast n state.input = true :=
    mt (hasAtLeast_iff _ _).mp (Nat.not_le.mpr hshort)
  simp only [onInput, Attempt.within, ByteInput.ahead, Bytes.ahead, if_neg hfew]

/-- A header is looked at as it is decoded, and nothing changes. -/
theorem header_eq (state : State Bytes) :
    header state = (Header.decode state.options state.input, state) := by
  cases hinput : state.input with
  | nil =>
      have hnone : state.input.length < 1 := by
        rw [hinput]
        exact Nat.one_pos
      rw [header, Attempt.bind_of_error (ahead_short hnone), hinput]
      rfl
  | cons marker body =>
      have hfirst := ahead_ok (show 1 ≤ state.input.length by rw [hinput]; exact Nat.succ_pos _)
      rw [header, Attempt.bind_of_ok hfirst, hinput, List.take_succ_cons, List.headD_cons]
      by_cases hshort : body.length + 1 < Header.size marker
      · have hmore : state.input.length < Header.size marker := by rwa [hinput]
        rw [Attempt.bind_of_error (ahead_short hmore), hinput, Header.decode_cut hshort]
        rfl
      · have hmore : Header.size marker ≤ state.input.length := by
          rw [hinput]
          exact Nat.le_of_not_lt hshort
        have hdecode : Header.decode state.options ((marker :: body).take (Header.size marker)) =
            Header.decode state.options (marker :: body) := by
          simp only [Header.size, List.take_succ_cons, Header.decode, List.take_take, Nat.min_self]
        rw [Attempt.bind_of_ok (ahead_ok hmore), hinput, Attempt.get_bind, hdecode]
        cases hfound : Header.decode state.options (marker :: body) with
        | error error => rfl
        | ok found =>
            obtain ⟨tag, n⟩ := found
            obtain ⟨_, _, hsame, rfl⟩ := Header.size_of_decode hfound
            cases hsame
            rfl

@[simp] theorem room_passed (count : Nat) (input : Bytes) :
    (state.passed count input).nesting.room = state.nesting.room :=
  Nesting.room_charged count

theorem passed_zero : state.passed 0 state.input = state := by
  simp [passed]

theorem passed_passed (first second : Nat) (input rest : Bytes) :
    (state.passed first input).passed second rest = state.passed (first + second) rest := by
  simp [passed, Nesting.charged_charged]

theorem header_ok {bytes rest : Bytes}
    (hdecode : Header.decode state.options bytes = .ok (tag, bytes.length))
    (hinput : state.input = bytes ++ rest) :
    header state = (.ok (tag, bytes.length), state) := by
  rw [header_eq, hinput, Header.decode_append hdecode]

theorem header_eq_ok {n : Nat} (hheader : header state = (.ok (tag, n), after)) :
    after = state ∧ ∃ bytes rest, state.input = bytes ++ rest ∧ bytes.length = n ∧
      Header.decode state.options bytes = .ok (tag, n) := by
  rw [header_eq] at hheader
  obtain ⟨hdecode, rfl⟩ := Prod.mk.inj hheader
  obtain ⟨bytes, rest, hinput, rfl, hbytes⟩ := Header.decode_split hdecode
  exact ⟨rfl, bytes, rest, hinput, rfl, hbytes⟩

theorem track_ok {operation : Nesting → Except Error Nesting} {nesting : Nesting}
    (hoperation : operation state.nesting = .ok nesting) :
    track operation state = (.ok (), { state with nesting }) :=
  Attempt.update_of_ok hoperation

theorem nextTag_of_entered {view : Tag → Tag} {seen : Tag} {bytes rest : Bytes}
    {counted nesting : Nesting}
    (hdecode : Header.decode state.options bytes = .ok (tag, bytes.length))
    (hview : view tag = seen) (hinput : state.input = bytes ++ rest)
    (helement : state.nesting.element = .ok counted)
    (henter : counted.enterTag seen = .ok nesting) :
    nextTag view state = (.ok seen, { state with input := rest, nesting }) := by
  subst hview
  rw [nextTag, Attempt.bind_of_ok (header_ok hdecode hinput)]
  simp only
  rw [Attempt.bind_of_ok (track_ok helement), Attempt.bind_of_ok (track_ok henter),
    Attempt.modify_bind]
  simp only [ByteInput.consume, hinput, List.drop_left]
  rfl

theorem readTag_of_entered {bytes rest : Bytes} {counted nesting : Nesting}
    (hdecode : Header.decode state.options bytes = .ok (tag, bytes.length))
    (hinput : state.input = bytes ++ rest) (helement : state.nesting.element = .ok counted)
    (henter : counted.enterTag tag = .ok nesting) :
    readTag state = (.ok tag, { state with input := rest, nesting }) :=
  nextTag_of_entered hdecode rfl hinput helement henter

theorem readTag_ok {bytes rest : Bytes}
    (hdecode : Header.decode state.options bytes = .ok (tag, bytes.length))
    (hinput : state.input = bytes ++ rest) (haccepts : state.nesting.Accepts 1)
    (hroom : state.nesting.room = none) :
    readTag state =
      (.ok tag, { state with input := rest, nesting := state.nesting.met tag }) :=
  readTag_of_entered hdecode hinput haccepts.element (Nesting.enterTag_charged hroom tag)

theorem readTag_eq_ok (haccepts : state.nesting.Accepts 1) (hroom : state.nesting.room = none)
    (hread : readTag state = (.ok tag, after)) :
    ∃ bytes rest, state.input = bytes ++ rest ∧
      Header.decode state.options bytes = .ok (tag, bytes.length) ∧
      after = { state with input := rest, nesting := state.nesting.met tag } := by
  obtain ⟨⟨found, n⟩, middle, hheader, hrest⟩ := Attempt.bind_eq_ok hread
  obtain ⟨rfl, bytes, rest, hinput, rfl, hdecode⟩ := header_eq_ok hheader
  have hfound : found = tag := by
    obtain ⟨_, _, _, hrest⟩ := Attempt.bind_eq_ok hrest
    obtain ⟨_, _, _, hrest⟩ := Attempt.bind_eq_ok hrest
    obtain ⟨_, _, _, hpure⟩ := Attempt.bind_eq_ok hrest
    cases hpure
    rfl
  subst hfound
  have hok := readTag_ok hdecode hinput haccepts hroom
  rw [hread] at hok
  cases hok
  exact ⟨bytes, rest, hinput, hdecode, rfl⟩

/-! Payloads, behind a header that has opened one. -/

section Payload

variable {outer : Nesting} {kind : Compound} {content rest : Bytes} {n : Nat}

theorem readBytes_ok {nesting : Nesting} (hinput : state.input = content ++ rest)
    (hbytes : state.nesting.bytes content.length = .ok nesting) :
    readBytes content.length state = (.ok content, { state with input := rest, nesting }) := by
  have henough : hasAtLeast content.length (content ++ rest) = true := by
    rw [hasAtLeast_iff, List.length_append]
    omega
  rw [readBytes, Attempt.bind_of_ok (track_ok hbytes)]
  simp only [onInput, Attempt.within, ByteInput.take, Bytes.takeExactly, hinput, henough, if_true,
    List.take_left, List.drop_left]

theorem copyBytes_ok (hkind : kind.holdsBytes = true) (hlimit : content.length ≤ state.maxAlloc)
    (hinput : state.input = content ++ rest)
    (hnesting : state.nesting = outer.pushed { kind, remaining := content.length }) :
    copyBytes content.length state = (.ok content,
      { state with input := rest, nesting := outer.pushed { kind, remaining := 0 } }) := by
  have hbytes : state.nesting.bytes content.length =
      .ok (outer.pushed { kind, remaining := 0 }) := by
    rw [hnesting, Nesting.bytes_pushed hkind]
  rw [copyBytes, Attempt.get_bind]
  simp only [Nat.not_lt.mpr hlimit, if_false]
  exact readBytes_ok hinput hbytes

theorem copyBytes_eq_ok (hkind : kind.holdsBytes = true)
    (hnesting : state.nesting = outer.pushed { kind, remaining := n })
    (hcopy : copyBytes n state = (.ok content, after)) :
    content.length = n ∧ ∃ rest, state.input = content ++ rest ∧
      after = { state with input := rest, nesting := outer.pushed { kind, remaining := 0 } } := by
  have hbytes : state.nesting.bytes n = .ok (outer.pushed { kind, remaining := 0 }) := by
    rw [hnesting, Nesting.bytes_pushed hkind]
  rw [copyBytes, Attempt.get_bind] at hcopy
  by_cases hlimit : state.maxAlloc < n
  · simp only [hlimit, if_true] at hcopy
    cases hcopy
  · simp only [hlimit, if_false] at hcopy
    rw [readBytes, Attempt.bind_of_ok (track_ok hbytes)] at hcopy
    simp only [onInput, Attempt.within, ByteInput.take, Bytes.takeExactly] at hcopy
    by_cases henough : hasAtLeast n state.input = true
    · rw [if_pos henough] at hcopy
      cases hcopy
      rw [hasAtLeast_iff] at henough
      exact ⟨List.length_take_of_le henough, state.input.drop n,
        (List.take_append_drop n state.input).symm, rfl⟩
    · rw [if_neg henough] at hcopy
      cases hcopy

theorem leave_ok (hnesting : state.nesting = outer.pushed { kind, remaining := 0 }) :
    leave kind state = (.ok (), { state with nesting := outer }) := by
  refine track_ok ?_
  rw [hnesting]
  exact Nesting.leave_pushed false

end Payload

theorem atEnd_eq (state : State Bytes) :
    atEnd state = (.ok state.input.isEmpty, state) := by
  obtain ⟨input, nesting, options, maxAlloc⟩ := state
  cases input <;> rfl

end Reader.State

namespace Value

/-- Runs of `count` messages, each of them decoded on its own. -/
def decodeAll (count : Nat) (decode : List Message → Except Error α) :
    Nat → List Message → Except Error (List α)
  | 0, _ => .ok []
  | n + 1, messages => do
      let first ← decode (messages.take count)
      let rest ← decodeAll count decode n (messages.drop count)
      return first :: rest

def decodeOne : List Message → Except Error Value
  | [message] => message.value
  | _ => .error (.truncated 1 0)

def decodePair (messages : List Message) : Except Error (Value × Value) := do
  let key ← decodeOne (messages.take 1)
  let value ← decodeOne (messages.drop 1)
  return (key, value)

open Reader.State

/-- The attempt reads `count` complete messages and comes to what they decode to. -/
structure Reads (fuel count : Nat) (attempt : Attempt (Reader.State Bytes) α)
    (decode : List Message → Except Error α) : Prop where
  sound : ∀ {state after : Reader.State Bytes} {value : α}, state.nesting.Accepts count →
    state.nesting.room = none → attempt state = (.ok value, after) →
    ∃ messages rest, messages.length = count ∧
      (∀ message ∈ messages, message.Complete state.options) ∧ decode messages = .ok value ∧
      state.input = Message.text messages ++ rest ∧ after = state.passed count rest
  complete : ∀ {state : Reader.State Bytes} {messages : List Message} {rest : Bytes} {value : α},
    state.nesting.Accepts count → state.nesting.room = none → messages.length = count →
    (∀ message ∈ messages, message.Complete state.options) → decode messages = .ok value →
    state.input = Message.text messages ++ rest →
    (Message.text messages).length ≤ fuel → (Message.text messages).length ≤ state.maxAlloc →
    attempt state = (.ok value, state.passed count rest)

variable {fuel count : Nat} {attempt : Attempt (Reader.State Bytes) α}
  {decode : List Message → Except Error α}

theorem Reads.seq {more : Nat} {later : Attempt (Reader.State Bytes) β}
    {decodeMore : List Message → Except Error β} (hreads : Reads fuel count attempt decode)
    (hlater : Reads fuel more later decodeMore) (combine : α → β → γ) :
    Reads fuel (count + more)
      (do let first ← attempt; let rest ← later; return combine first rest)
      (fun messages => do
        let first ← decode (messages.take count)
        let rest ← decodeMore (messages.drop count)
        return combine first rest) := by
  refine ⟨?_, ?_⟩
  · intro state after value haccepts hroom hattempt
    obtain ⟨first, middle, hfirst, hrest⟩ := Attempt.bind_eq_ok hattempt
    obtain ⟨others, last, hothers, hpure⟩ := Attempt.bind_eq_ok hrest
    cases hpure
    obtain ⟨messages, rest, rfl, hcomplete, hdecode, hinput, rfl⟩ :=
      hreads.sound (haccepts.mono (Nat.le_add_right _ _)) hroom hfirst
    obtain ⟨behind, final, rfl, hmore, hdecoded, hleft, rfl⟩ :=
      hlater.sound haccepts.charged (by rw [room_passed, hroom]) hothers
    refine ⟨messages ++ behind, final, List.length_append, ?_, ?_, ?_, passed_passed _ _ _ _⟩
    · intro message hmember
      rcases List.mem_append.mp hmember with hmember | hmember
      · exact hcomplete message hmember
      · exact hmore message hmember
    · simp only [List.take_left, List.drop_left, hdecode, hdecoded]
      rfl
    · rw [hinput, Message.text_append, List.append_assoc]
      exact congrArg _ hleft
  · intro state messages rest value haccepts hroom hlength hcomplete hdecode hinput hfuel hlimit
    obtain ⟨first, hfirst, hmore⟩ := bind_eq_ok hdecode
    obtain ⟨others, hothers, hpure⟩ := bind_eq_ok hmore
    cases hpure
    have htext : Message.text messages =
        Message.text (messages.take count) ++ Message.text (messages.drop count) := by
      rw [← Message.text_append, List.take_append_drop]
    rw [htext, List.length_append] at hfuel hlimit
    rw [htext, List.append_assoc] at hinput
    have hhead := hreads.complete (haccepts.mono (Nat.le_add_right _ _)) hroom
      (List.length_take_of_le (by omega))
      (fun message hmember => hcomplete message (List.mem_of_mem_take hmember)) hfirst hinput
      (by omega) (by omega)
    have hleft : (messages.drop count).length = more := by
      rw [List.length_drop, hlength, Nat.add_sub_cancel_left]
    let middle := state.passed count (Message.text (messages.drop count) ++ rest)
    have htail : later middle = (.ok others, middle.passed more rest) :=
      hlater.complete haccepts.charged (by rw [room_passed, hroom]) hleft
        (fun message hmember => hcomplete message (List.mem_of_mem_drop hmember)) hothers rfl
        (by omega) (by simp only [middle, passed]; omega)
    rw [Attempt.bind_of_ok hhead, Attempt.bind_of_ok htail, passed_passed]
    rfl

theorem Reads.pair {read : Attempt (Reader.State Bytes) Value}
    (hreads : Reads fuel 1 read decodeOne) : Reads fuel 2 (readPair read) decodePair :=
  hreads.seq hreads Prod.mk

theorem collect_found (attempt : Attempt σ α) (n : Nat) (found : Array α) :
    collect attempt n found = (do
      let rest ← collect attempt n #[]
      return found.toList ++ rest) := by
  induction n generalizing found with
  | zero => simp [collect]
  | succ n ih =>
      rw [collect, collect]
      simp only [bind_assoc]
      refine bind_congr fun next => ?_
      rw [ih (found.push next), ih (#[].push next)]
      simp [List.append_assoc]

theorem collect_succ (attempt : Attempt σ α) (n : Nat) :
    collect attempt (n + 1) #[] = (do
      let next ← attempt
      let rest ← collect attempt n #[]
      return next :: rest) := by
  rw [collect]
  refine bind_congr fun next => ?_
  rw [collect_found]
  simp

theorem Reads.collect (hreads : Reads fuel count attempt decode) (n : Nat) :
    Reads fuel (n * count) (Value.collect attempt n #[]) (decodeAll count decode n) := by
  induction n with
  | zero =>
      refine ⟨?_, ?_⟩
      · intro state after value _ _ hcollect
        cases hcollect
        refine ⟨[], state.input, (Nat.zero_mul count).symm, ?_, rfl, rfl, ?_⟩
        · exact fun _ hmember => absurd hmember List.not_mem_nil
        · rw [Nat.zero_mul, passed_zero]
      · intro state messages rest value _ _ hlength _ hdecode hinput _ _
        rw [Nat.zero_mul] at hlength ⊢
        rw [List.eq_nil_of_length_eq_zero hlength] at hinput
        cases hdecode
        obtain rfl : state.input = rest := hinput
        rw [passed_zero]
        rfl
  | succ n ih =>
      rw [Nat.succ_mul, Nat.add_comm, collect_succ]
      exact hreads.seq ih List.cons

/-- Behind a header that states the tag, the attempt reads what the tag opened and leaves it. -/
structure Finishes (fuel : Nat) (tag : Tag) (attempt : Attempt (Reader.State Bytes) Value) :
    Prop where
  sound : ∀ {nesting : Nesting} {state after : Reader.State Bytes} {value : Value},
    nesting.room = none → state.nesting = nesting.met tag → attempt state = (.ok value, after) →
    ∃ payload children rest, payload.length = tag.payloadLength?.getD 0 ∧
      children.length = tag.childCount?.getD 0 ∧
      (∀ child ∈ children, child.Complete state.options) ∧
      (Message.node [] tag payload children).value = .ok value ∧
      state.input = payload ++ (Message.text children ++ rest) ∧
      after = { state with input := rest, nesting := nesting.charged 1 }
  complete : ∀ {nesting : Nesting} {state : Reader.State Bytes} {payload rest : Bytes}
    {children : List Message} {value : Value},
    nesting.room = none → state.nesting = nesting.met tag →
    payload.length = tag.payloadLength?.getD 0 → children.length = tag.childCount?.getD 0 →
    (∀ child ∈ children, child.Complete state.options) →
    (Message.node [] tag payload children).value = .ok value →
    state.input = payload ++ (Message.text children ++ rest) →
    (payload ++ Message.text children).length ≤ fuel →
    (payload ++ Message.text children).length ≤ state.maxAlloc →
    attempt state = (.ok value, { state with input := rest, nesting := nesting.charged 1 })

theorem Finishes.reads {body : Tag → Attempt (Reader.State Bytes) Value}
    (hbody : ∀ tag, Finishes fuel tag (body tag)) :
    Reads (fuel + 1) 1 (readTag >>= body) decodeOne := by
  refine ⟨?_, ?_⟩
  · intro state after value haccepts hroom hread
    obtain ⟨tag, middle, htag, hrest⟩ := Attempt.bind_eq_ok hread
    obtain ⟨header, behind, hinput, hheader, rfl⟩ := readTag_eq_ok haccepts hroom htag
    obtain ⟨payload, children, rest, hpayload, hcount, hchildren, hvalue, hbehind, rfl⟩ :=
      (hbody tag).sound hroom rfl hrest
    refine ⟨[.node header tag payload children], rest, rfl, ?_, hvalue, ?_, rfl⟩
    · intro message hmember
      rw [List.mem_singleton.mp hmember]
      exact .node hheader hpayload hcount hchildren
    · rw [hinput, show behind = _ from hbehind]
      simp [Message.text, Message.bytes]
  · intro state messages rest value haccepts hroom hlength hcomplete hdecode hinput hfuel hlimit
    obtain ⟨message, rfl⟩ := List.length_eq_one_iff.mp hlength
    cases hcomplete message (List.mem_singleton.mpr rfl) with
    | @node header tag payload children hheader hpayload hcount hchildren =>
        have hpos := Header.decode_size_pos hheader
        simp only [Message.text, Message.bytes, List.append_nil, List.length_append]
          at hfuel hlimit
        have hbehind : state.input = header ++ (payload ++ (Message.text children ++ rest)) := by
          rw [hinput]
          simp [Message.text, Message.bytes]
        rw [Attempt.bind_of_ok (readTag_ok hheader hbehind haccepts hroom)]
        exact (hbody tag).complete hroom rfl hpayload hcount hchildren hdecode rfl
          (by rw [List.length_append]; omega) (by rw [List.length_append]; dsimp only; omega)

variable {tag : Tag} {kind : Compound} {n : Nat}

theorem Finishes.scalar {found : Value} (hopens : tag.opens? = none)
    (hvalue : ∀ payload children, (Message.node [] tag payload children).value = .ok found) :
    Finishes fuel tag (pure found) := by
  have hmet : ∀ nesting : Nesting, nesting.met tag = nesting.charged 1 := fun nesting => by
    simp only [Nesting.met, hopens]
  refine ⟨?_, ?_⟩
  · intro nesting state after value _ hnesting hpure
    cases hpure
    refine ⟨[], [], state.input, ?_, ?_, fun _ hmember => absurd hmember List.not_mem_nil,
      hvalue _ _, rfl, ?_⟩
    · rw [Tag.payloadLength_of_scalar hopens]
      rfl
    · rw [Tag.childCount_of_scalar hopens]
      rfl
    · rw [← hmet, ← hnesting]
  · intro nesting state payload rest children value _ hnesting hpayload hcount _ hdecode hinput _ _
    rw [Tag.payloadLength_of_scalar hopens] at hpayload
    rw [Tag.childCount_of_scalar hopens] at hcount
    rw [List.eq_nil_of_length_eq_zero hpayload, List.eq_nil_of_length_eq_zero hcount] at hinput
    rw [hvalue] at hdecode
    cases hdecode
    obtain rfl : state.input = rest := hinput
    rw [← hmet, ← hnesting]
    rfl

theorem Finishes.payload {next : Bytes → Attempt (Reader.State Bytes) Value}
    {build : Bytes → Except Error Value} (hkind : kind.holdsBytes = true)
    (hopens : tag.opens? = some (kind, n)) (hlength : tag.payloadLength? = some n)
    (hscalar : tag.childCount? = none)
    (hvalue : ∀ payload children, (Message.node [] tag payload children).value = build payload)
    (hnext : ∀ content, next content = (do
      let found ← Attempt.lift (build content)
      leave kind
      return found)) :
    Finishes fuel tag (copyBytes n >>= next) := by
  refine ⟨?_, ?_⟩
  · intro nesting state after value _ hnesting hattempt
    rw [Nesting.met_of_opens hopens] at hnesting
    obtain ⟨content, middle, hcopy, hrest⟩ := Attempt.bind_eq_ok hattempt
    obtain ⟨hcontent, rest, hinput, rfl⟩ := copyBytes_eq_ok hkind hnesting hcopy
    rw [hnext] at hrest
    obtain ⟨found, _, hlift, hleave⟩ := Attempt.bind_eq_ok hrest
    obtain ⟨hfound, rfl⟩ := Attempt.lift_eq_ok hlift
    rw [Attempt.bind_of_ok (leave_ok rfl)] at hleave
    cases hleave
    refine ⟨content, [], rest, by rw [hlength]; exact hcontent, by rw [hscalar]; rfl,
      fun _ hmember => absurd hmember List.not_mem_nil, ?_, hinput, rfl⟩
    rw [hvalue, hfound]
  · intro nesting state payload rest children value _ hnesting hpayload hcount _ hdecode hinput _
      hlimit
    rw [Nesting.met_of_opens hopens] at hnesting
    rw [hlength] at hpayload
    rw [hscalar] at hcount
    obtain rfl : payload.length = n := hpayload
    rw [List.eq_nil_of_length_eq_zero hcount] at hinput hlimit
    rw [hvalue] at hdecode
    have hcopy := copyBytes_ok hkind (by simpa [Message.text] using hlimit) hinput hnesting
    rw [Attempt.bind_of_ok hcopy, hnext, hdecode, Attempt.lift_bind_ok,
      Attempt.bind_of_ok (leave_ok rfl)]
    rfl

theorem Finishes.elements {build : α → Value} (hkind : kind.holdsBytes = false)
    (hopens : tag.opens? = some (kind, n)) (hlength : tag.payloadLength? = none)
    (hchildren : tag.childCount? = some n) (hreads : Reads fuel n attempt decode)
    (hvalue : ∀ payload children, children.length = n →
      (Message.node [] tag payload children).value = (decode children).map build) :
    Finishes fuel tag (do let found ← attempt; leave kind; return build found) := by
  have hpushed : ∀ nesting : Nesting, nesting.room = none →
      (nesting.met tag).Accepts n ∧ (nesting.met tag).room = none ∧
        (nesting.met tag).charged n =
          (nesting.charged 1).pushed { kind, remaining := 0 } := by
    intro nesting hroom
    rw [Nesting.met_of_opens hopens]
    refine ⟨Nesting.accepts_pushed hkind 0 _, Nesting.room_pushed ?_ _, Nesting.charged_pushed⟩
    rw [Nesting.room_charged, hroom]
    rfl
  refine ⟨?_, ?_⟩
  · intro nesting state after value hroom hnesting hattempt
    obtain ⟨haccepts, hfree, hcharged⟩ := hpushed nesting hroom
    rw [← hnesting] at haccepts hfree hcharged
    obtain ⟨found, middle, hfound, hleave⟩ := Attempt.bind_eq_ok hattempt
    obtain ⟨messages, rest, hcount, hcomplete, hdecode, hinput, rfl⟩ :=
      hreads.sound haccepts hfree hfound
    rw [Attempt.bind_of_ok (leave_ok hcharged)] at hleave
    cases hleave
    refine ⟨[], messages, rest, by rw [hlength]; rfl, by rw [hchildren]; exact hcount, hcomplete,
      ?_, hinput, rfl⟩
    rw [hvalue _ _ hcount, hdecode]
    rfl
  · intro nesting state payload rest children value hroom hnesting hpayload hcount hcomplete
      hdecode hinput hfuel hlimit
    obtain ⟨haccepts, hfree, hcharged⟩ := hpushed nesting hroom
    rw [← hnesting] at haccepts hfree hcharged
    rw [hlength] at hpayload
    rw [hchildren] at hcount
    rw [List.eq_nil_of_length_eq_zero hpayload] at hinput hfuel hlimit
    rw [hvalue _ _ hcount] at hdecode
    cases hfound : decode children with
    | error error => rw [hfound] at hdecode; cases hdecode
    | ok found =>
        rw [hfound] at hdecode
        cases hdecode
        rw [Attempt.bind_of_ok
            (hreads.complete haccepts hfree hcount hcomplete hfound hinput hfuel hlimit),
          Attempt.bind_of_ok (leave_ok hcharged)]
        rfl

/-! Elements and pairs, decoded each on its own, are what all of them decode to. -/

theorem decodeAll_one {messages : List Message} :
    decodeAll 1 decodeOne messages.length messages = Message.values messages := by
  induction messages with
  | nil => rfl
  | cons message messages ih =>
      rw [List.length_cons, decodeAll, Message.values]
      simp only [List.take_succ_cons, List.take_zero, List.drop_succ_cons, List.drop_zero, ih,
        decodeOne]

theorem decodeAll_pair {n : Nat} {messages : List Message} (hlength : messages.length = n * 2) :
    decodeAll 2 decodePair n messages = (Message.values messages).map paired := by
  induction n generalizing messages with
  | zero =>
      rw [Nat.zero_mul] at hlength
      rw [List.eq_nil_of_length_eq_zero hlength]
      rfl
  | succ n ih =>
      match messages, hlength with
      | [_], hlength =>
          simp only [List.length_cons, List.length_nil] at hlength
          omega
      | key :: value :: messages, hlength =>
          simp only [List.length_cons] at hlength
          rw [decodeAll]
          simp only [List.take_succ_cons, List.take_zero, List.drop_succ_cons, List.drop_zero,
            decodePair, decodeOne, Message.values, ih (show messages.length = n * 2 by omega)]
          cases key.value with
          | error error => rfl
          | ok key =>
              cases value.value with
              | error error => rfl
              | ok value => cases Message.values messages <;> rfl

theorem readText_str (n : Nat) :
    (do let text ← readText n; leave .str; return str text : Attempt (Reader.State Bytes) Value) =
      (do
        let content ← copyBytes n
        let found ← Attempt.lift (ofText content)
        leave .str
        return found) := by
  rw [readText, bind_assoc]
  refine bind_congr fun content => ?_
  rw [ofText]
  cases ofUtf8? content <;> rfl

/-- A value is read exactly where a complete message stands. -/
theorem readWithin_reads (fuel : Nat) : Reads fuel 1 (readWithin fuel) decodeOne := by
  induction fuel with
  | zero =>
      refine ⟨fun _ _ hread => (by cases hread), ?_⟩
      intro state messages rest value _ _ hlength hcomplete _ _ hfuel _
      obtain ⟨message, rfl⟩ := List.length_eq_one_iff.mp hlength
      have hpos := (hcomplete message (List.mem_singleton.mpr rfl)).length_pos
      simp only [Message.text, List.append_nil] at hfuel
      omega
  | succ fuel ih =>
      refine Finishes.reads fun tag => ?_
      cases tag with
      | str length =>
          have hvalue : ∀ payload children,
              (Message.node [] (.str length) payload children).value = ofText payload :=
            fun _ _ => rfl
          have hread : Finishes fuel (.str length) _ :=
            .payload rfl rfl rfl rfl hvalue fun _ => rfl
          rwa [← readText_str] at hread
      | bin length =>
          exact .payload rfl rfl rfl rfl (fun _ _ => rfl) fun _ => rfl
      | ext type length =>
          exact .payload rfl rfl rfl rfl (fun _ _ => rfl) fun _ => rfl
      | array count =>
          have hitems := ih.collect count.toNat
          rw [Nat.mul_one] at hitems
          refine .elements rfl rfl rfl rfl hitems fun payload children hlength => ?_
          rw [← hlength, decodeAll_one]
          rfl
      | map pairs =>
          have hentries := ih.pair.collect pairs.toNat
          rw [Nat.mul_comm] at hentries
          refine .elements rfl rfl rfl rfl hentries fun payload children hlength => ?_
          rw [decodeAll_pair (by omega)]
          cases hvalues : Message.values children <;> simp [Message.value, hvalues, Except.map]
      | _ => exact .scalar rfl fun _ _ => rfl

variable {state after : Reader.State Bytes} {value : Value}

theorem read_eq_ok (haccepts : state.nesting.Accepts 1) (hroom : state.nesting.room = none)
    (hread : read state = (.ok value, after)) :
    ∃ (message : Message) (rest : Bytes), message.Complete state.options ∧
      message.value = .ok value ∧ state.input = message.bytes ++ rest ∧
      after = state.passed 1 rest := by
  rw [read, Attempt.get_bind] at hread
  obtain ⟨messages, rest, hlength, hcomplete, hdecode, hinput, hafter⟩ :=
    (readWithin_reads _).sound haccepts hroom hread
  obtain ⟨message, rfl⟩ := List.length_eq_one_iff.mp hlength
  rw [Message.text, Message.text, List.append_nil] at hinput
  exact ⟨message, rest, hcomplete message (List.mem_singleton.mpr rfl), hdecode, hinput, hafter⟩

theorem read_ok {message : Message} {rest : Bytes} (haccepts : state.nesting.Accepts 1)
    (hroom : state.nesting.room = none) (hcomplete : message.Complete state.options)
    (hvalue : message.value = .ok value) (hinput : state.input = message.bytes ++ rest)
    (hlimit : message.bytes.length ≤ state.maxAlloc) :
    read state = (.ok value, state.passed 1 rest) := by
  have htext : Message.text [message] = message.bytes := List.append_nil _
  have hsize : state.size = message.bytes.length + rest.length := by
    rw [size, hinput]
    exact List.length_append
  have hlength : [message].length = 1 := rfl
  rw [read, Attempt.get_bind]
  refine (readWithin_reads _).complete haccepts hroom hlength ?_ hvalue ?_ ?_ ?_
  · exact fun other hmember => List.mem_singleton.mp hmember ▸ hcomplete
  · rw [htext, hinput]
  · rw [htext, hsize]
    omega
  · rw [htext]
    exact hlimit

end Value
end MessagePack
