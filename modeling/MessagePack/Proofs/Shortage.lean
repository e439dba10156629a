import MessagePack.Proofs.Agreement
import MessagePack.Proofs.Resumption

/-!
Readers whose input is cut short. Wherever a value is read from all of some bytes, the same value
is read from a front part of them, or bytes are missing and there is no other fault; a value that
has been read is one message, gone from the input.
-/

namespace MessagePack

/-- An outcome as expected, unless the input is too short for it. -/
inductive UnlessShort {α : Type} (expected : α → Prop) : Except Error α → Prop
  | reached {value : α} (hexpected : expected value) : UnlessShort expected (.ok value)
  | short {needed available : Nat} (hless : available < needed) :
      UnlessShort expected (.error (.truncated needed available))

namespace UnlessShort

variable {α β : Type} {expected : α → Prop} {wanted : β → Prop} {outcome : Except Error α}

theorem bind {next : α → Except Error β} (houtcome : UnlessShort expected outcome)
    (hnext : ∀ value, expected value → UnlessShort wanted (next value)) :
    UnlessShort wanted (outcome >>= next) := by
  cases houtcome with
  | reached hexpected => exact hnext _ hexpected
  | short hless => exact .short hless

/-- What cannot be reached is out of reach for want of input. -/
theorem truncated (houtcome : UnlessShort expected outcome) (hnone : ∀ value, ¬expected value) :
    ∃ needed available, available < needed ∧ outcome = .error (.truncated needed available) := by
  cases houtcome with
  | reached hexpected => exact absurd hexpected (hnone _)
  | short hless => exact ⟨_, _, hless, rfl⟩

end UnlessShort

theorem Header.decode_unlessShort {options : TagOptions} {bytes missing : Bytes} {found : Tag}
    {n : Nat} (hdecode : decode options (bytes ++ missing) = .ok (found, n)) :
    UnlessShort (fun result => result = (found, n) ∧ n ≤ bytes.length) (decode options bytes) := by
  cases bytes with
  | nil => exact .short Nat.one_pos
  | cons marker body =>
      rw [List.cons_append] at hdecode
      obtain ⟨rfl, hlength, haccepted, rfl⟩ := decode_cons_iff.mp hdecode
      by_cases hbody : (Form.ofMarker marker).bodyLength ≤ body.length
      · have hsame : decode options (marker :: body) = .ok (_, size marker) :=
          decode_cons_iff.mpr ⟨rfl, hbody, haccepted, rfl⟩
        rw [hsame, List.take_append_of_le_length hbody]
        exact .reached ⟨rfl, Nat.succ_le_succ hbody⟩
      · have hshort : (body.take (Form.ofMarker marker).bodyLength).length <
            (Form.ofMarker marker).bodyLength := by
          rw [List.length_take]
          omega
        simp only [decode, if_pos hshort]
        exact .short (by omega)

namespace Attempt

variable {σ τ α β : Type} {related : σ → τ → Prop}

/-- Wherever the first succeeds, the second comes to the same unless its input is too short. -/
def Outruns (related : σ → τ → Prop) (first : Attempt σ α) (second : Attempt τ α) : Prop :=
  ∀ state other value after, related state other → first state = (.ok value, after) →
    UnlessShort (fun found => found = value ∧ related after (second other).2) (second other).1

theorem Agrees.outruns {first : Attempt σ α} {second : Attempt τ α}
    (hagrees : Agrees related first second) : Outruns related first second := by
  intro state other value after hrelated hfirst
  obtain ⟨later, hsecond, hafter⟩ := hagrees.run hrelated hfirst
  rw [hsecond]
  exact .reached ⟨rfl, hafter⟩

namespace Outruns

theorem bind {first : Attempt σ α} {second : Attempt τ α} {next : α → Attempt σ β}
    {later : α → Attempt τ β} (hfirst : Outruns related first second)
    (hnext : ∀ value, Outruns related (next value) (later value)) :
    Outruns related (first >>= next) (second >>= later) := by
  intro state other result final hrelated hbind
  obtain ⟨value, middle, hrun, hrest⟩ := bind_eq_ok hbind
  have hsecond := hfirst state other value middle hrelated hrun
  rcases hother : second other with ⟨outcome, changed⟩
  rw [hother] at hsecond
  cases hsecond with
  | reached hsame =>
      obtain ⟨rfl, hmiddle⟩ := hsame
      rw [bind_of_ok hother]
      exact hnext _ middle changed result final hmiddle hrest
  | short hless =>
      rw [bind_of_error hother]
      exact .short hless

theorem get {next : σ → Attempt σ β} {later : τ → Attempt τ β}
    (hnext : ∀ state other, related state other → Outruns related (next state) (later other)) :
    Outruns related (MonadState.get >>= next) (MonadState.get >>= later) :=
  fun state other value after hrelated hrun =>
    hnext state other hrelated state other value after hrelated hrun

end Outruns
end Attempt

namespace Reader.State

variable {missing : Bytes}

/-- The second reader lacks some bytes at the end of its input. -/
abbrev Lacks (missing : Bytes) : State Bytes → State Bytes → Prop :=
  Related fun whole part => whole = part ++ missing

theorem take_outruns (n : Nat) :
    Attempt.Outruns (Lacks missing) (onInput (ByteInput.take n)) (onInput (ByteInput.take n)) := by
  intro state other value after hrelated htake
  have hwhole := hrelated.input
  simp only [onInput, Attempt.within, ByteInput.take, Bytes.takeExactly] at htake ⊢
  by_cases henough : n ≤ other.input.length
  · have hall : n ≤ state.input.length := by
      rw [hwhole, List.length_append]
      omega
    rw [← hasAtLeast_iff] at hall
    rw [if_pos hall] at htake
    rw [if_pos ((hasAtLeast_iff _ _).mpr henough)]
    cases htake
    refine .reached ⟨?_, { hrelated with input := ?_ }⟩
    · rw [hwhole, List.take_append_of_le_length henough]
    · show state.input.drop n = other.input.drop n ++ missing
      rw [hwhole, List.drop_append_of_le_length henough]
  · rw [if_neg (mt (hasAtLeast_iff _ _).mp henough)]
    exact .short (Nat.lt_of_not_le henough)

/-- A header that is not all there cannot be looked at. -/
theorem header_short {state : State Bytes} {bytes left rest : Bytes} {tag : Tag}
    (hdecode : Header.decode state.options bytes = .ok (tag, bytes.length))
    (hinput : state.input ++ left = bytes ++ rest)
    (hshort : state.input.length < bytes.length) :
    ∃ needed available, available < needed ∧
      header state = (.error (.truncated needed available), state) := by
  have hwhole : Header.decode state.options (state.input ++ left) = .ok (tag, bytes.length) := by
    rw [hinput, Header.decode_append hdecode]
  have hfront := Header.decode_unlessShort hwhole
  rw [header_eq]
  obtain ⟨needed, available, hless, hfew⟩ := hfront.truncated fun _ hthere =>
    Nat.not_le.mpr hshort hthere.2
  exact ⟨needed, available, hless, by rw [hfew]⟩

theorem nextTag_outruns (view : Tag → Tag) :
    Attempt.Outruns (Lacks missing) (nextTag view) (nextTag view) := by
  intro state other value after hrelated hnext
  rw [nextTag_eq] at hnext ⊢
  obtain ⟨⟨tag, n⟩, middle, hheader, hnext⟩ := Attempt.bind_eq_ok hnext
  obtain ⟨rfl, header, rest, hinput, rfl, hdecode⟩ := header_eq_ok hheader
  obtain ⟨_, met, hmeet, hnext⟩ := Attempt.bind_eq_ok hnext
  cases hnext
  have hwhole : other.input ++ missing = header ++ rest := hrelated.input.symm.trans hinput
  rw [hrelated.options] at hdecode
  by_cases hshort : other.input.length < header.length
  · obtain ⟨needed, available, hless, hother⟩ := header_short hdecode hwhole hshort
    rw [Attempt.bind_of_error hother]
    exact .short hless
  · obtain ⟨left, hleft, hrest⟩ := append_split hwhole (Nat.le_of_not_lt hshort)
    obtain ⟨final, hmet, hsame⟩ := (meet_agrees (view tag)).run hrelated hmeet
    rw [Attempt.bind_of_ok (header_ok hdecode hleft)]
    simp only [Attempt.bind_of_ok hmet]
    refine .reached ⟨rfl, { hsame with input := ?_ }⟩
    show met.input.drop header.length = final.input.drop header.length ++ missing
    rw [input_meet hmeet, input_meet hmet, hinput, hleft, List.drop_left, List.drop_left, hrest]

theorem copyBytes_outruns (n : Nat) :
    Attempt.Outruns (Lacks missing) (copyBytes n) (copyBytes n) := by
  refine .get fun state other hrelated => ?_
  rw [hrelated.maxAlloc]
  by_cases hlarge : other.maxAlloc < n
  · simp only [hlarge, if_true]
    exact (Attempt.Agrees.throw_bind _ _ _).outruns
  · simp only [hlarge, if_false]
    exact (track_agrees _).outruns.bind fun _ => take_outruns n

theorem readText_outruns (n : Nat) :
    Attempt.Outruns (Lacks missing) (readText n) (readText n) := by
  apply (copyBytes_outruns n).bind
  intro content
  split
  · exact (Attempt.Agrees.pure _).outruns
  · exact (Attempt.Agrees.throw _).outruns

end Reader.State

namespace Value

open Reader.State

variable {σ τ α : Type} {related : σ → τ → Prop} {missing : Bytes}

theorem collect_outruns {first : Attempt σ α} {second : Attempt τ α}
    (houtruns : Attempt.Outruns related first second) (n : Nat) (found : Array α) :
    Attempt.Outruns related (collect first n found) (collect second n found) := by
  induction n generalizing found with
  | zero => exact (Attempt.Agrees.pure _).outruns
  | succ n ih => exact houtruns.bind fun next => ih (found.push next)

theorem readPair_outruns {first : Attempt σ Value} {second : Attempt τ Value}
    (houtruns : Attempt.Outruns related first second) :
    Attempt.Outruns related (readPair first) (readPair second) :=
  houtruns.bind fun _ => houtruns.bind fun _ => (Attempt.Agrees.pure _).outruns

/-- A shorter input allows for less nesting. -/
theorem readWithin_outruns (fuel less : Nat) :
    Attempt.Outruns (Lacks missing) (readWithin fuel) (readWithin less) := by
  -- On the fuel that is enough for all of the input. The reader of the part may run out of its
  -- own first, and then asks for more bytes.
  induction fuel generalizing less with
  | zero => exact fun _ _ _ _ _ hread => nomatch hread
  | succ fuel ih =>
      cases less with
      | zero => exact fun _ _ _ _ _ _ => .short Nat.one_pos
      | succ less =>
          have hdone : ∀ value : Value, Attempt.Outruns (Lacks missing)
              (pure value : Attempt (Reader.State Bytes) Value) (pure value) :=
            fun value => (Attempt.Agrees.pure value).outruns
          have hleave : ∀ (kind : Compound) (value : Value), Attempt.Outruns (Lacks missing)
              (do leave kind; return value : Attempt (Reader.State Bytes) Value)
              (do leave kind; return value) :=
            fun kind value => (leave_agrees kind).outruns.bind fun _ => hdone value
          apply (nextTag_outruns id).bind
          intro tag
          cases tag with
          | str length => exact (readText_outruns _).bind fun _ => hleave .str _
          | bin length => exact (copyBytes_outruns _).bind fun _ => hleave .bin _
          | ext type length => exact (copyBytes_outruns _).bind fun _ => hleave .ext _
          | array count => exact (collect_outruns (ih less) _ _).bind fun _ => hleave .array _
          | map pairs =>
              exact (collect_outruns (readPair_outruns (ih less)) _ _).bind fun _ => hleave .map _
          | _ => exact hdone _

theorem read_outruns : Attempt.Outruns (Lacks missing) read read :=
  .get fun _ _ _ => readWithin_outruns _ _

end Value

/-! What a reader takes off its input, whatever its nesting. -/

namespace Reader.State

variable {state after : State Bytes} {α β : Type}

theorem track_keeps {operation : Nesting → Except Error Nesting} {result : Except Error Unit}
    (htrack : track operation state = (result, after)) :
    after.input = state.input ∧ after.options = state.options := by
  unfold track Attempt.update at htrack
  split at htrack <;> cases htrack <;> exact ⟨rfl, rfl⟩

theorem nextTag_takes {tag : Tag} (hnext : nextTag id state = (.ok tag, after)) :
    ∃ header, Header.decode state.options header = .ok (tag, header.length) ∧
      state.input = header ++ after.input ∧ after.options = state.options := by
  rw [nextTag_eq] at hnext
  obtain ⟨⟨found, n⟩, middle, hheader, hnext⟩ := Attempt.bind_eq_ok hnext
  obtain ⟨rfl, header, rest, hinput, rfl, hdecode⟩ := header_eq_ok hheader
  obtain ⟨_, met, hmeet, hnext⟩ := Attempt.bind_eq_ok hnext
  obtain ⟨_, charged, helement, henter⟩ := Attempt.bind_eq_ok hmeet
  cases hnext
  refine ⟨header, hdecode, ?_, (track_keeps henter).2.trans (track_keeps helement).2⟩
  show middle.input = header ++ met.input.drop header.length
  rw [(track_keeps henter).1, (track_keeps helement).1, hinput, List.drop_left]

theorem copyBytes_takes {n : Nat} {content : Bytes}
    (hcopy : copyBytes n state = (.ok content, after)) :
    state.input = content ++ after.input ∧ content.length = n ∧
      after.options = state.options := by
  rw [copyBytes, Attempt.get_bind] at hcopy
  split at hcopy
  · cases hcopy
  · obtain ⟨_, middle, htrack, htake⟩ := Attempt.bind_eq_ok hcopy
    obtain ⟨hinput, hoptions⟩ := track_keeps htrack
    simp only [onInput, Attempt.within, ByteInput.take, Bytes.takeExactly] at htake
    split at htake
    next result input hresult =>
      split at hresult
      · next henough =>
          cases hresult
          cases htake
          rw [hasAtLeast_iff] at henough
          refine ⟨?_, List.length_take_of_le henough, hoptions⟩
          rw [← hinput, List.take_append_drop]
      · cases hresult
        cases htake

end Reader.State

namespace Value

open Reader.State

variable {α β : Type} {count more : Nat}

/-- So many messages are gone from the input after a success. -/
def TakesOff (count : Nat) (attempt : Attempt (Reader.State Bytes) α) : Prop :=
  ∀ state value after, attempt state = (.ok value, after) →
    ∃ bytes, Messages state.options count bytes ∧ state.input = bytes ++ after.input ∧
      after.options = state.options

/-- What follows a header is gone from the input after a success. -/
def Closes (tag : Tag) (attempt : Attempt (Reader.State Bytes) α) : Prop :=
  ∀ state value after, attempt state = (.ok value, after) →
    ∃ payload rest, payload.length = tag.payloadLength?.getD 0 ∧
      Messages state.options (tag.childCount?.getD 0) rest ∧
      state.input = payload ++ rest ++ after.input ∧ after.options = state.options

namespace TakesOff

theorem pure (value : α) : TakesOff 0 (Pure.pure value) := by
  intro state result after hpure
  cases hpure
  exact ⟨[], .none, rfl, rfl⟩

theorem bind {first : Attempt (Reader.State Bytes) α} {next : α → Attempt (Reader.State Bytes) β}
    (hfirst : TakesOff count first) (hnext : ∀ value, TakesOff more (next value)) :
    TakesOff (count + more) (first >>= next) := by
  intro state result final hbind
  obtain ⟨value, middle, hrun, hrest⟩ := Attempt.bind_eq_ok hbind
  obtain ⟨bytes, hbytes, hinput, hoptions⟩ := hfirst state value middle hrun
  obtain ⟨others, hothers, hafter, hkept⟩ := hnext value middle result final hrest
  rw [hoptions] at hothers
  refine ⟨bytes ++ others, hbytes.append hothers, ?_, hkept.trans hoptions⟩
  rw [hinput, hafter, List.append_assoc]

theorem lift (outcome : Except Error α) : TakesOff 0 (Attempt.lift outcome) := by
  intro state value after hlift
  obtain ⟨-, rfl⟩ := Attempt.lift_eq_ok hlift
  exact ⟨[], .none, rfl, rfl⟩

theorem leave (kind : Compound) : TakesOff 0 (leave kind) := by
  intro state value after hleave
  obtain ⟨hinput, hoptions⟩ := track_keeps hleave
  exact ⟨[], .none, hinput.symm, hoptions⟩

theorem collect {attempt : Attempt (Reader.State Bytes) α} (htakes : TakesOff count attempt)
    (n : Nat) (found : Array α) : TakesOff (n * count) (collect attempt n found) := by
  induction n generalizing found with
  | zero =>
      rw [Nat.zero_mul]
      exact .pure _
  | succ n ih =>
      rw [Nat.succ_mul, Nat.add_comm]
      exact htakes.bind fun next => ih (found.push next)

theorem pair {read : Attempt (Reader.State Bytes) Value} (htakes : TakesOff 1 read) :
    TakesOff 2 (readPair read) :=
  htakes.bind fun _ => htakes.bind fun _ => .pure _

end TakesOff

namespace Closes

variable {tag : Tag}

theorem scalar (hpayload : tag.payloadLength? = none) (hcount : tag.childCount? = none)
    (value : α) : Closes tag (Pure.pure value) := by
  intro state result after hpure
  cases hpure
  refine ⟨[], [], by rw [hpayload]; rfl, ?_, rfl, rfl⟩
  rw [hcount]
  exact .none

theorem payload {n : Nat} {next : Bytes → Attempt (Reader.State Bytes) α}
    (hpayload : tag.payloadLength? = some n) (hcount : tag.childCount? = none)
    (hnext : ∀ content, TakesOff 0 (next content)) : Closes tag (copyBytes n >>= next) := by
  intro state result final hbind
  obtain ⟨content, middle, hcopy, hrest⟩ := Attempt.bind_eq_ok hbind
  obtain ⟨hinput, hlength, hoptions⟩ := copyBytes_takes hcopy
  obtain ⟨rest, hmessages, hafter, hkept⟩ := hnext content middle result final hrest
  rw [hoptions] at hmessages
  refine ⟨content, rest, by rw [hpayload]; exact hlength, by rw [hcount]; exact hmessages, ?_,
    hkept.trans hoptions⟩
  rw [hinput, hafter, List.append_assoc]

theorem elements {n : Nat} {items : Attempt (Reader.State Bytes) α}
    {next : α → Attempt (Reader.State Bytes) β} (hpayload : tag.payloadLength? = none)
    (hcount : tag.childCount? = some n) (hitems : TakesOff n items)
    (hnext : ∀ found, TakesOff 0 (next found)) : Closes tag (items >>= next) := by
  intro state result final hbind
  obtain ⟨rest, hmessages, hinput, hoptions⟩ := hitems.bind hnext state result final hbind
  exact ⟨[], rest, by rw [hpayload]; rfl, by rw [hcount]; exact hmessages, hinput, hoptions⟩

theorem takesOff {body : Tag → Attempt (Reader.State Bytes) α}
    (hbody : ∀ tag, Closes tag (body tag)) : TakesOff 1 (readTag >>= body) := by
  intro state result final hbind
  obtain ⟨tag, middle, hread, hrest⟩ := Attempt.bind_eq_ok hbind
  obtain ⟨header, hdecode, hinput, hoptions⟩ := nextTag_takes hread
  obtain ⟨payload, rest, hpayload, hmessages, hafter, hkept⟩ :=
    hbody tag middle result final hrest
  rw [hoptions] at hmessages
  refine ⟨header ++ payload ++ rest, .enclose hdecode hpayload hmessages, ?_,
    hkept.trans hoptions⟩
  rw [hinput, hafter]
  simp only [List.append_assoc]

end Closes

theorem readWithin_takesOff (fuel : Nat) : TakesOff 1 (readWithin fuel) := by
  induction fuel with
  | zero => exact fun _ _ _ hread => nomatch hread
  | succ fuel ih =>
      have hleave : ∀ (kind : Compound) (value : Value), TakesOff 0
          (do leave kind; return value : Attempt (Reader.State Bytes) Value) :=
        fun kind value => (TakesOff.leave kind).bind fun _ => .pure value
      apply Closes.takesOff
      intro tag
      cases tag with
      | str length =>
          have hread : Closes (.str length) _ := .payload rfl rfl fun content =>
            (TakesOff.lift (ofText content)).bind fun found => hleave .str found
          rwa [← readText_str] at hread
      | bin length => exact .payload rfl rfl fun _ => hleave .bin _
      | ext type length => exact .payload rfl rfl fun _ => hleave .ext _
      | array count =>
          have hitems := ih.collect count.toNat #[]
          rw [Nat.mul_one] at hitems
          exact .elements rfl rfl hitems fun _ => hleave .array _
      | map pairs =>
          have hentries := ih.pair.collect pairs.toNat #[]
          rw [Nat.mul_comm] at hentries
          exact .elements rfl rfl hentries fun _ => hleave .map _
      | _ => exact .scalar rfl rfl _

theorem read_takesOff : TakesOff 1 read := by
  intro state value after hread
  rw [read, Attempt.get_bind] at hread
  exact readWithin_takesOff _ state value after hread

/-- One value from the start of a source. -/
def readFrom (config : Config) (source : Source) : Except Error Value := do
  let reader ← Reader.create config source
  (Latch.call read reader).1

theorem readFrom_eq {config : Config} {source : Source} (hvalid : config.Valid)
    (hreader : config.reader = true) (hsteady : source.Steady) :
    readFrom config source = (read (Reader.State.ofBytes config source.content)).1 := by
  obtain ⟨state, hcreate, halike⟩ := Reader.create_alike hvalid hreader hsteady
  obtain ⟨hsame, -⟩ := read_agrees Buffered.simulates state _ halike
  rw [readFrom, hcreate, ← hsame]
  show (Latch.call read { state }).1 = (read state).1
  rcases hread : read state with ⟨outcome, after⟩
  cases outcome with
  | ok value => rw [Latch.call_of_ok hread]
  | error error => rw [Latch.call_of_error hread]

/-- The front part of what a value is read from holds no value, for want of bytes. -/
theorem read_short {config : Config} {bytes missing : Bytes} {value : Value}
    (hlength : messageLength config.tagOptions bytes = .ok none)
    (hread : (read (Reader.State.ofBytes config (bytes ++ missing))).1 = .ok value) :
    ∃ needed available, available < needed ∧
      (read (Reader.State.ofBytes config bytes)).1 = .error (.truncated needed available) := by
  rcases hwhole : read (Reader.State.ofBytes config (bytes ++ missing)) with ⟨outcome, after⟩
  rw [hwhole] at hread
  cases hread
  have hlacks : Lacks missing (Reader.State.ofBytes config (bytes ++ missing))
      (Reader.State.ofBytes config bytes) := ⟨rfl, rfl, rfl, rfl⟩
  have hpart := read_outruns _ _ value after hlacks hwhole
  rcases hrun : read (Reader.State.ofBytes config bytes) with ⟨outcome, later⟩
  rw [hrun] at hpart
  cases hpart with
  | short hless => exact ⟨_, _, hless, rfl⟩
  | @reached found hfound =>
      obtain ⟨front, hmessages, hinput, -⟩ := read_takesOff _ found later hrun
      have hbytes : bytes = front ++ later.input := hinput
      have hsome : messageLength config.tagOptions bytes = .ok (some front.length) := by
        rw [hbytes]
        refine messageLength_eq_some_iff.mpr ⟨?_, by rw [List.take_left]; exact hmessages⟩
        rw [List.length_append]
        exact Nat.le_add_right _ _
      cases hlength.symm.trans hsome

theorem reader_of_readFrom {config : Config} {source : Source} {value : Value}
    (hread : readFrom config source = .ok value) : config.reader = true := by
  obtain ⟨reader, hcreate, -⟩ := bind_eq_ok hread
  obtain ⟨_, -, hcreate⟩ := bind_eq_ok hcreate
  obtain ⟨_, hfeature, -⟩ := bind_eq_ok hcreate
  exact requireFeature_eq_ok hfeature

end Value

end MessagePack
