import MessagePack.Proofs.Cursor
import MessagePack.Proofs.Resumption
import MessagePack.Proofs.Settings
import MessagePack.Proofs.Sticky

/-!
Discarding a value. The countdowns of the open levels hold together what a scan keeps in one
count, so that a value is discarded exactly where a scan finds the end of a message.
-/

namespace MessagePack

/-- A tag opens bytes, elements or nothing. -/
theorem Tag.opens_cases (tag : Tag) :
    (tag.opens? = none ∧ tag.payloadLength? = none ∧ tag.childCount? = none) ∨
      (∃ kind n, tag.opens? = some (kind, n) ∧ kind.holdsBytes = true ∧
        tag.payloadLength? = some n ∧ tag.childCount? = none) ∨
      ∃ kind n, tag.opens? = some (kind, n) ∧ kind.holdsBytes = false ∧
        tag.payloadLength? = none ∧ tag.childCount? = some n := by
  cases tag with
  | str length | bin length | ext type length =>
      exact .inr (.inl ⟨_, _, rfl, rfl, rfl, rfl⟩)
  | array count | map pairs => exact .inr (.inr ⟨_, _, rfl, rfl, rfl, rfl⟩)
  | _ => exact .inl ⟨rfl, rfl, rfl⟩

namespace Nesting

/-- With the levels open, the innermost first; each has been charged for the one in it. -/
def opened (base : Nesting) : List (Compound × Nat) → Nesting
  | [] => base
  | (kind, remaining) :: outer => ((base.opened outer).charged 1).pushed { kind, remaining }

theorem room_opened {base : Nesting} (hroom : base.room = none)
    (levels : List (Compound × Nat)) : (base.opened levels).room = none := by
  induction levels with
  | nil => exact hroom
  | cons level outer ih =>
      refine room_pushed ?_ _
      rw [room_charged, ih]
      rfl

end Nesting

namespace Reader.State

/-- The elements owed at all levels: one at the base, and behind the next one of each level the
others of that level. -/
def owed : List (Compound × Nat) → Nat
  | [] => 1
  | (_, n) :: outer => n - 1 + owed outer

theorem owed_pos (levels : List (Compound × Nat)) : 0 < owed levels := by
  induction levels with
  | nil => exact Nat.one_pos
  | cons level outer ih => exact Nat.add_pos_right _ ih

variable {base : Nesting} {levels : List (Compound × Nat)} {state : State Bytes}
  {element rest : Bytes} {tag : Tag}

/-- A discard that began at the base has come to where the next element of the innermost level
is to be read. -/
structure Discarding (base : Nesting) (levels : List (Compound × Nat)) (state : State Bytes) :
    Prop where
  accepts : base.Accepts 1
  room : base.room = none
  owed : ∀ level ∈ levels, level.1.holdsBytes = false ∧ 0 < level.2
  nesting : state.nesting = base.opened levels

theorem Discarding.accepted (hdiscarding : Discarding base levels state) :
    state.nesting.Accepts 1 := by
  rw [hdiscarding.nesting]
  cases levels with
  | nil => exact hdiscarding.accepts
  | cons level outer =>
      obtain ⟨hkind, hsome⟩ := hdiscarding.owed level (.head _)
      have hlevel : level.2 = 1 + (level.2 - 1) := by omega
      rw [Nesting.opened, hlevel]
      exact Nesting.accepts_pushed hkind _ _

theorem Discarding.free (hdiscarding : Discarding base levels state) :
    state.nesting.room = none := by
  rw [hdiscarding.nesting]
  exact Nesting.room_opened hdiscarding.room levels

/-- When an element is complete, a level further out waits for its next one, or none does. -/
theorem unwind_opened (howed : ∀ level ∈ levels, level.1.holdsBytes = false ∧ 0 < level.2)
    (hnesting : state.nesting = (base.opened levels).charged 1) :
    (owed levels = 1 ∧
      unwind levels state = (.ok [], { state with nesting := base.charged 1 })) ∨
    ∃ level outer, owed levels = owed (level :: outer) + 1 ∧
      (∀ other ∈ level :: outer, other.1.holdsBytes = false ∧ 0 < other.2) ∧
      unwind levels state =
        (.ok (level :: outer), { state with nesting := base.opened (level :: outer) }) := by
  induction levels generalizing state with
  | nil =>
      refine .inl ⟨rfl, ?_⟩
      rw [← show state.nesting = base.charged 1 from hnesting]
      rfl
  | cons level outer ih =>
      obtain ⟨kind, n⟩ := level
      obtain ⟨hkind, hsome⟩ := howed (kind, n) (.head _)
      rw [Nesting.opened, Nesting.charged_opened] at hnesting
      rw [owed]
      by_cases hlast : n ≤ 1
      · obtain rfl : n = 1 := Nat.le_antisymm hlast hsome
        have hleave := leave_ok hnesting
        rcases @ih { state with nesting := (base.opened outer).charged 1 }
            (fun level hlevel => howed level (.tail _ hlevel)) rfl with
          ⟨hdone, hunwind⟩ | ⟨level, more, hmore, hlevels, hunwind⟩
        · refine .inl ⟨by omega, ?_⟩
          simp only [unwind, if_pos hlast]
          rw [Attempt.bind_of_ok hleave, hunwind]
        · refine .inr ⟨level, more, by omega, hlevels, ?_⟩
          simp only [unwind, if_pos hlast]
          rw [Attempt.bind_of_ok hleave, hunwind]
      · refine .inr ⟨(kind, n - 1), outer, ?_, ?_, ?_⟩
        · rw [owed]
          omega
        · intro other hother
          rcases List.mem_cons.mp hother with rfl | hother
          · exact ⟨hkind, by simp only; omega⟩
          · exact howed other (.tail _ hother)
        · simp only [unwind, if_neg hlast]
          rw [Nesting.opened, ← hnesting]
          rfl

theorem skipBytes_ok {content : Bytes} {nesting : Nesting} (hinput : state.input = content ++ rest)
    (hbytes : state.nesting.bytes content.length = .ok nesting) :
    skipBytes content.length state = (.ok (), { state with input := rest, nesting }) := by
  rw [skipBytes_eq, readBytes_ok hinput hbytes]
  rfl

/-- The element that is complete when its tag has been passed over is the last one, or another
is to be read. -/
theorem discardWithin_complete {middle : State Bytes} (hdiscarding : Discarding base levels state)
    (hread : readTag state = (.ok tag, middle)) (howes : owes? tag = none)
    (hpass : passOver tag middle =
      (.ok (), { state with input := rest, nesting := (base.opened levels).charged 1 })) :
    (owed levels = 1 ∧ discardWithin levels state =
        (.ok (), { state with input := rest, nesting := base.charged 1 })) ∨
    ∃ more, owed levels = owed more + 1 ∧
      Discarding base more { state with input := rest, nesting := base.opened more } ∧
      discardWithin levels state =
        discardWithin more { state with input := rest, nesting := base.opened more } := by
  rw [discardWithin_eq, Attempt.bind_of_ok hread]
  simp only [howes]
  rcases @unwind_opened base levels
      { state with input := rest, nesting := (base.opened levels).charged 1 }
      hdiscarding.owed rfl with
    ⟨hlast, hunwind⟩ | ⟨level, outer, hmore, hlevels, hunwind⟩
  · refine .inl ⟨hlast, ?_⟩
    rw [Attempt.bind_of_ok ((Attempt.bind_of_ok hpass).trans hunwind)]
    rfl
  · refine .inr ⟨level :: outer, hmore, ?_, ?_⟩
    · exact ⟨hdiscarding.accepts, hdiscarding.room, hlevels, rfl⟩
    · rw [Attempt.bind_of_ok ((Attempt.bind_of_ok hpass).trans hunwind)]

/-- An element that is all there is passed over. -/
theorem discardWithin_element {payload : Bytes} (hdiscarding : Discarding base levels state)
    (hheader : Header.decode state.options element = .ok (tag, element.length))
    (hpayload : payload.length = tag.payloadLength?.getD 0)
    (hinput : state.input = element ++ (payload ++ rest)) :
    (owed levels + tag.childCount?.getD 0 = 1 ∧ discardWithin levels state =
        (.ok (), { state with input := rest, nesting := base.charged 1 })) ∨
    ∃ more, owed levels + tag.childCount?.getD 0 = owed more + 1 ∧
      Discarding base more { state with input := rest, nesting := base.opened more } ∧
      discardWithin levels state =
        discardWithin more { state with input := rest, nesting := base.opened more } := by
  have hread := readTag_ok hheader hinput hdiscarding.accepted hdiscarding.free
  rw [hdiscarding.nesting] at hread
  rcases tag.opens_cases with ⟨hopens, hnone, hscalar⟩ | ⟨kind, n, hopens, hkind, hsome, hscalar⟩ |
    ⟨kind, n, hopens, hkind, hnone, hcount⟩
  · -- A scalar.
    rw [hnone] at hpayload
    rw [List.eq_nil_of_length_eq_zero hpayload] at hread
    have hmet : (base.opened levels).met tag = (base.opened levels).charged 1 := by
      simp only [Nesting.met, hopens]
    rw [hmet] at hread
    rw [hscalar]
    refine discardWithin_complete hdiscarding hread ?_ ?_
    · simp only [owes?, hopens]
    · simp only [passOver, hopens]
      rfl
  · -- Bytes, which are skipped.
    rw [hsome, Option.getD_some] at hpayload
    rw [hscalar]
    rw [Nesting.met_of_opens hopens] at hread
    subst hpayload
    refine discardWithin_complete hdiscarding hread ?_ ?_
    · simp [owes?, hopens, hkind]
    · simp only [passOver, hopens, hkind, if_true]
      rw [Attempt.bind_of_ok (skipBytes_ok rfl (Nesting.bytes_pushed hkind)),
        leave_ok rfl]
  · rw [hnone] at hpayload
    rw [List.eq_nil_of_length_eq_zero hpayload] at hread
    rw [Nesting.met_of_opens hopens] at hread
    rw [hcount, Option.getD_some]
    cases n with
    | zero =>
        refine discardWithin_complete hdiscarding hread ?_ ?_
        · simp [owes?, hopens]
        · simp only [passOver, hopens, hkind, Bool.false_eq_true, if_false]
          rw [leave_ok rfl]
          rfl
    | succ n =>
        refine .inr ⟨(kind, n + 1) :: levels, ?_, ?_, ?_⟩
        · rw [owed]
          omega
        · refine ⟨hdiscarding.accepts, hdiscarding.room, fun level hlevel => ?_, rfl⟩
          rcases List.mem_cons.mp hlevel with rfl | hlevel
          · exact ⟨hkind, Nat.succ_pos n⟩
          · exact hdiscarding.owed level hlevel
        · rw [discardWithin_eq, Attempt.bind_of_ok hread]
          simp [owes?, hopens, hkind]
          rfl

/-- As long as a scan goes on, so does the discard, with as much owed at all its levels together. -/
theorem discardWithin_through {options : TagOptions} {scan after : Scan} {passed : Bytes}
    (hthrough : Scan.Through options scan passed after) (hoptions : state.options = options)
    (hdiscarding : Discarding base levels state) (howed : scan.owed = owed levels)
    (hinput : state.input = passed ++ rest) :
    (after.owed = 0 ∧ discardWithin levels state =
        (.ok (), { state with input := rest, nesting := base.charged 1 })) ∨
    ∃ more, after.owed = owed more ∧
      Discarding base more { state with input := rest, nesting := base.opened more } ∧
      discardWithin levels state =
        discardWithin more { state with input := rest, nesting := base.opened more } := by
  induction hthrough generalizing levels state with
  | here scan =>
      have hsame : { state with input := rest, nesting := base.opened levels } = state := by
        rw [← hdiscarding.nesting, ← show state.input = rest from hinput]
      rw [← hsame] at hdiscarding
      exact .inr ⟨levels, howed, hdiscarding, by rw [hsame]⟩
  | @element scan next after element passed hpasses hthrough ih =>
      subst hoptions
      cases hpasses with
      | @element position count header payload tag hheader hpayload =>
          rw [List.append_assoc, List.append_assoc] at hinput
          have hcount : count + 1 = owed levels := howed
          rcases discardWithin_element hdiscarding hheader hpayload hinput with
            ⟨hlast, hdone⟩ | ⟨more, hmore, hlevels, hnext⟩
          · -- A scan that is owed nothing goes no further.
            obtain rfl : count = 0 := by omega
            have hnothing : tag.childCount?.getD 0 = 0 := by omega
            rw [hnothing] at hthrough
            cases hthrough with
            | here => exact .inl ⟨rfl, hdone⟩
            | element hmore => cases hmore
          · have hnow : count + tag.childCount?.getD 0 = owed more := by omega
            rw [hnext]
            exact ih rfl hlevels hnow rfl

theorem readTag_error {error : Error}
    (hdecode : Header.decode state.options state.input = .error error) :
    readTag state = (.error error, state) := by
  have hheader : header state = (.error error, state) := by rw [header_eq, hdecode]
  rw [readTag, nextTag, Attempt.bind_of_error hheader]

theorem skipBytes_short {n : Nat} {nesting : Nesting}
    (hbytes : state.nesting.bytes n = .ok nesting) (hshort : state.input.length < n) :
    ∃ after, skipBytes n state = (.error (.truncated n state.input.length), after) := by
  have hfew : ¬hasAtLeast n state.input = true :=
    mt (hasAtLeast_iff _ _).mp (Nat.not_le.mpr hshort)
  rw [skipBytes, Attempt.bind_of_ok (track_ok hbytes)]
  simp only [onInput, Attempt.within, ByteInput.skip, Bytes.skipExactly, if_neg hfew]
  exact ⟨_, rfl⟩

/-- A discard fails where a scan wants more. -/
theorem discardWithin_wants {scan : Scan} (hdiscarding : Discarding base levels state)
    (hwants : Scan.Wants state.options state.input scan) :
    ∃ wanted got, (discardWithin levels state).1 = .error (.truncated wanted got) := by
  rw [discardWithin_eq]
  cases hwants with
  | header hdecode =>
      rw [Attempt.bind_of_error (readTag_error hdecode)]
      exact ⟨_, _, rfl⟩
  | @payload position count size tag hdecode hshort =>
      obtain ⟨header, body, hinput, rfl, hheader⟩ := Header.decode_split hdecode
      have hread := readTag_ok hheader hinput hdiscarding.accepted hdiscarding.free
      rw [hdiscarding.nesting] at hread
      rw [hinput, List.length_append] at hshort
      rcases tag.opens_cases with ⟨-, hnone, -⟩ | ⟨kind, n, hopens, hkind, hsome, -⟩ |
        ⟨kind, n, -, -, hnone, -⟩
      · rw [hnone, Option.getD_none] at hshort
        omega
      · rw [hsome, Option.getD_some] at hshort
        rw [Nesting.met_of_opens hopens] at hread
        obtain ⟨after, hskip⟩ := @skipBytes_short
          { state with
            input := body
            nesting := ((base.opened levels).charged 1).pushed { kind, remaining := n } }
          n _ (Nesting.bytes_pushed hkind) (show body.length < n by omega)
        rw [Attempt.bind_of_ok hread]
        have howes : owes? tag = none := by simp [owes?, hopens, hkind]
        simp only [howes, passOver, hopens, hkind, if_true]
        rw [Attempt.bind_of_error (Attempt.bind_of_error (Attempt.bind_of_error hskip))]
        exact ⟨_, _, rfl⟩
      · rw [hnone, Option.getD_none] at hshort
        omega

/-- A discard fails as a scan does. -/
theorem discardWithin_refuses {scan : Scan} {error : Error}
    (hrefuses : Scan.Refuses state.options state.input error scan) :
    (discardWithin levels state).1 = .error error := by
  cases hrefuses with
  | header hdecode hthere =>
      rw [discardWithin_eq, Attempt.bind_of_error (readTag_error hdecode)]

/-- Exactly one message is discarded, and charged to the innermost compound. -/
theorem discard_eq (haccepts : state.nesting.Accepts 1) (hroom : state.nesting.room = none) :
    match messageLength state.options state.input with
    | .ok (some n) => discard state = (.ok (), state.passed 1 (state.input.drop n))
    | .ok none => ∃ wanted got, (discard state).1 = .error (.truncated wanted got)
    | .error error => (discard state).1 = .error error := by
  obtain ⟨passed, left, after, hinput, hthrough, hhalts, hresume⟩ :=
    Scan.resume_start state.options state.input
  have hstart : Discarding state.nesting [] state :=
    ⟨haccepts, hroom, fun _ hlevel => absurd hlevel List.not_mem_nil, rfl⟩
  have hposition : after.position = passed.length := by
    rw [hthrough.position]
    exact Nat.zero_add _
  rw [messageLength, hresume]
  rcases discardWithin_through hthrough rfl hstart rfl hinput with
    ⟨hdone, hdiscard⟩ | ⟨more, howed, hlevels, hdiscard⟩
  · rw [Scan.advance_done hdone, hposition, hinput]
    simp only [List.drop_left]
    exact hdiscard
  · cases hhalts with
    | done hdone =>
        rw [howed] at hdone
        exact absurd hdone (Nat.ne_of_gt (owed_pos more))
    | wants hwants =>
        rw [hwants.advance]
        simp only [discard]
        rw [hdiscard]
        exact discardWithin_wants hlevels hwants
    | refuses error hrefuses =>
        rw [hrefuses.advance]
        simp only [discard]
        rw [hdiscard]
        exact discardWithin_refuses hrefuses

end Reader.State

namespace Nesting

variable {nesting after : Nesting}

/-- One more element fits: tracking is off, nothing is open, or the innermost compound holds
elements and is owed one at least. -/
inductive TakesOne (nesting : Nesting) : Nesting → Prop
  | unchecked (hoff : nesting.enabled = false) : TakesOne nesting nesting
  | outermost (hnone : nesting.frames = []) : TakesOne nesting nesting
  | counted {top : Frame} {outer : List Frame} (hon : nesting.enabled = true)
      (hframes : nesting.frames = top :: outer) (hkind : top.kind = .array ∨ top.kind = .map)
      (hcounted : top.openEnded = false) (howed : 0 < top.remaining) :
      TakesOne nesting
        { nesting with frames := { top with remaining := top.remaining - 1 } :: outer }

theorem TakesOne.accepts (htakes : nesting.TakesOne after) : nesting.Accepts 1 := by
  intro henabled top htop
  cases htakes with
  | unchecked hoff => rw [hoff] at henabled; cases henabled
  | outermost hnone => rw [hnone] at htop; cases htop
  | counted hon hframes hkind hcounted howed =>
      rw [hframes] at htop
      cases htop
      refine ⟨?_, fun _ => howed⟩
      rcases hkind with harray | hmap
      · rw [harray]; rfl
      · rw [hmap]; rfl

theorem TakesOne.charged (htakes : nesting.TakesOne after) : nesting.charged 1 = after := by
  cases htakes with
  | unchecked hoff =>
      exact charged_of_free (fun henabled => by rw [hoff] at henabled; cases henabled) 1
  | outermost hnone =>
      exact charged_of_free (fun _ top htop => by rw [hnone] at htop; cases htop) 1
  | counted hon hframes hkind hcounted howed => exact charged_of_counted hon hframes hcounted 1

theorem TakesOne.depth (htakes : nesting.TakesOne after) : after.depth = nesting.depth := by
  cases htakes with
  | unchecked | outermost => rfl
  | counted _ hframes => rw [Nesting.depth, Nesting.depth, hframes]; rfl

/-- Only where an element is accepted is it counted. -/
theorem accepts_of_element (helement : nesting.element = .ok after) : nesting.Accepts 1 := by
  intro henabled top htop
  rcases element_eq_ok henabled helement with
    ⟨hnone, -⟩ | ⟨first, outer, hframes, hkind, ⟨hended, -⟩ | ⟨-, hsome, -⟩⟩
  · rw [hnone] at htop
    cases htop
  · rw [hframes] at htop
    cases htop
    exact ⟨hkind, fun hclosed => by rw [hclosed] at hended; cases hended⟩
  · rw [hframes] at htop
    cases htop
    exact ⟨hkind, fun _ => Nat.pos_of_ne_zero hsome⟩

end Nesting

theorem Reader.State.accepts_of_readTag {state after : Reader.State Bytes} {tag : Tag}
    (hread : readTag state = (.ok tag, after)) : state.nesting.Accepts 1 := by
  obtain ⟨⟨found, n⟩, middle, hheader, hmeet⟩ := Attempt.bind_eq_ok hread
  obtain ⟨rfl, -⟩ := header_eq_ok hheader
  obtain ⟨_, _, helement, -⟩ := Attempt.bind_eq_ok hmeet
  obtain ⟨counted, hcounted, -⟩ := Attempt.update_eq_ok helement
  exact Nesting.accepts_of_element hcounted

theorem Value.accepts_of_read {state after : Reader.State Bytes} {value : Value}
    (hread : read state = (.ok value, after)) : state.nesting.Accepts 1 := by
  rw [read, Attempt.get_bind, readWithin] at hread
  obtain ⟨tag, _, hnext, -⟩ := Attempt.bind_eq_ok hread
  exact Reader.State.accepts_of_readTag hnext

/-- Where a value is read, a discard comes to the same place. -/
theorem Value.discard_of_read {state after : Reader.State Bytes} {value : Value}
    (hroom : state.nesting.room = none) (hread : read state = (.ok value, after)) :
    Reader.State.discard state = (.ok (), after) := by
  have haccepts := accepts_of_read hread
  obtain ⟨message, rest, hcomplete, -, hinput, rfl⟩ := read_eq_ok haccepts hroom hread
  have hlength : messageLength state.options state.input = .ok (some message.bytes.length) := by
    rw [messageLength_eq_some_iff, hinput, List.take_left, List.length_append]
    exact ⟨Nat.le_add_right _ _, Messages.one_iff.mpr ⟨message, hcomplete, rfl⟩⟩
  have hdiscard := Reader.State.discard_eq haccepts hroom
  simp only [hlength] at hdiscard
  rwa [hinput, List.drop_left] at hdiscard

namespace Reader

/-- The readers that a configuration and a source lead to, whatever is asked of them. -/
inductive Reached (config : Config) (source : Source) : Reader Buffered → Prop
  | created {reader : Reader Buffered} (hcreate : create config source = .ok reader) :
      Reached config source reader
  | called {reader : Reader Buffered} (hreached : Reached config source reader) (call : Call) :
      Reached config source (perform call reader).2
  | valued {reader : Reader Buffered} (hreached : Reached config source reader) :
      Reached config source (Latch.call Value.read reader).2
  | failed {reader : Reader Buffered} (hreached : Reached config source reader) (error : Error) :
      Reached config source (reader.fail error).2

/-- The bytes that the source has not delivered yet, behind those in the buffer. -/
def unread (reader : Reader Buffered) : Bytes :=
  reader.state.input.held ++ reader.state.input.source.content

variable {config : Config} {source : Source} {reader : Reader Buffered}

/-- Whatever is asked of it, a reader stands where a cursor stands that was set up like it. -/
theorem Reached.stands (hsteady : source.Steady) (hreached : Reached config source reader) :
    ∃ plain : Reader Bytes, reader.Follows plain ∧ plain.state.settings =
      (config.tagOptions, config.maxAlloc, config.readTracking, config.trackingLimit) := by
  have hkeeps : ∀ {α : Type} {attempt : Attempt (State Bytes) α} {plain : Reader Bytes},
      Attempt.Keeps State.settings attempt →
        (Latch.call attempt plain).2.state.settings = plain.state.settings := by
    intro α attempt plain hattempt
    exact @Latch.call_keeps _ _ (fun state => state.settings = plain.state.settings) _ _
      (fun state hstate => (hattempt state).trans hstate) rfl
  induction hreached with
  | created hcreate =>
      rcases ofInput_agrees config (hsteady.holds config.bufferSize) with
        ⟨error, hfailed, -⟩ | ⟨reader, plain, hreader, hplain, hfollows, -⟩
      · cases hcreate.symm.trans hfailed
      · cases hcreate.symm.trans hreader
        refine ⟨plain, hfollows, ?_⟩
        obtain ⟨_, -, hplain⟩ := bind_eq_ok hplain
        obtain ⟨_, -, hplain⟩ := bind_eq_ok hplain
        cases hplain
        rfl
  | called _ call ih =>
      obtain ⟨plain, hfollows, hsettings⟩ := ih
      exact ⟨_, (perform_agrees Buffered.simulates call _ _ hfollows).2,
        (hkeeps (State.settings_perform call)).trans hsettings⟩
  | valued _ ih =>
      obtain ⟨plain, hfollows, hsettings⟩ := ih
      exact ⟨_, (Latch.call_agrees (Value.read_agrees Buffered.simulates) _ _ hfollows).2,
        (hkeeps Value.settings_read).trans hsettings⟩
  | @failed reader _ error ih =>
      obtain ⟨plain, hfollows, hsettings⟩ := ih
      refine ⟨(plain.fail error).2, hfollows.fail error, ?_⟩
      rw [Latch.fail_state]
      exact hsettings

theorem Follows.discard_ok {plain : Reader Bytes} {state : State Bytes}
    (hfollows : reader.Follows plain) (hnone : plain.error? = none)
    (hdiscard : State.discard plain.state = (.ok (), state)) :
    ∃ after, perform .discard reader = (.ok .done, after) ∧ after.unread = state.input ∧
      after.state.nesting = state.nesting := by
  obtain ⟨before, error?⟩ := plain
  obtain rfl : error? = none := hnone
  have hplain : perform .discard { state := before } = (.ok .done, { state }) :=
    Latch.call_of_ok (Attempt.bind_of_ok hdiscard)
  obtain ⟨hreply, hafter⟩ := perform_agrees Buffered.simulates .discard _ _ hfollows
  rw [hplain] at hreply hafter
  exact ⟨_, Prod.ext hreply rfl, hafter.state.input.content, hafter.state.nesting⟩

theorem Follows.discard_error {plain : Reader Bytes} {error : Error}
    (hfollows : reader.Follows plain) (hnone : plain.error? = none)
    (hdiscard : (State.discard plain.state).1 = .error error) :
    (perform .discard reader).1 = .error error := by
  obtain ⟨before, error?⟩ := plain
  obtain rfl : error? = none := hnone
  have hplain : perform .discard { state := before } = (.error error, _) :=
    Latch.call_of_error (Attempt.bind_of_error (Prod.ext hdiscard rfl))
  rw [(perform_agrees Buffered.simulates .discard _ _ hfollows).1, hplain]

/-- Without an error the cursor has the options of the configuration and all the room. -/
theorem Reached.follows (hsteady : source.Steady) (hdynamic : config.dynamicAlloc = true)
    (hreached : Reached config source reader) (hfree : reader.error? = none) :
    ∃ plain : Reader Bytes, reader.Follows plain ∧ plain.error? = none ∧
      plain.state.options = config.tagOptions ∧ plain.state.nesting.room = none := by
  obtain ⟨plain, hfollows, hsettings⟩ := hreached.stands hsteady
  have hlimit : plain.state.nesting.limit = none :=
    (congrArg (fun settings => settings.2.2.2) hsettings).trans
      (config.trackingLimit_of_dynamic hdynamic)
  refine ⟨plain, hfollows, hfollows.error.symm.trans hfree, congrArg Prod.fst hsettings, ?_⟩
  simp [Nesting.room, hlimit]

theorem Follows.discard_takes {plain : Reader Bytes} {nesting : Nesting}
    (hfollows : reader.Follows plain) (hnone : plain.error? = none)
    (hroom : plain.state.nesting.room = none) (htakes : reader.state.nesting.TakesOne nesting) :
    match messageLength plain.state.options reader.unread with
    | .ok (some n) =>
        n ≤ reader.unread.length ∧ ∃ after, perform .discard reader = (.ok .done, after) ∧
          after.unread = reader.unread.drop n ∧ after.state.nesting = nesting ∧
            after.depth = reader.depth
    | .ok none => ∃ wanted got, (perform .discard reader).1 = .error (.truncated wanted got)
    | .error error => (perform .discard reader).1 = .error error := by
  have hunread : reader.unread = plain.state.input := hfollows.state.input.content
  have hnesting : reader.state.nesting = plain.state.nesting := hfollows.state.nesting
  have hdiscard := State.discard_eq (hnesting ▸ htakes.accepts) hroom
  rw [← hunread] at hdiscard
  cases hlength : messageLength plain.state.options reader.unread with
  | error error =>
      simp only [hlength] at hdiscard ⊢
      exact hfollows.discard_error hnone hdiscard
  | ok found =>
      cases found with
      | none =>
          simp only [hlength] at hdiscard ⊢
          obtain ⟨wanted, got, hshort⟩ := hdiscard
          exact ⟨wanted, got, hfollows.discard_error hnone hshort⟩
      | some n =>
          simp only [hlength] at hdiscard ⊢
          obtain ⟨after, hperform, hrest, hcharged⟩ := hfollows.discard_ok hnone hdiscard
          have hnow : after.state.nesting = nesting := by
            rw [hcharged, State.passed, ← hnesting]
            exact htakes.charged
          refine ⟨(messageLength_eq_some_iff.mp hlength).1, after, hperform, hrest, hnow, ?_⟩
          rw [depth, hnow, htakes.depth]
          rfl

theorem Follows.discard_read {plain : Reader Bytes} {value : Value} {final : Reader Buffered}
    (hfollows : reader.Follows plain) (hnone : plain.error? = none)
    (hroom : plain.state.nesting.room = none)
    (hread : Latch.call Value.read reader = (.ok value, final)) :
    ∃ after, perform .discard reader = (.ok .done, after) ∧ after.unread = final.unread ∧
      after.state.nesting = final.state.nesting := by
  obtain ⟨last, hplain, hlast⟩ :=
    (Latch.call_agrees (Value.read_agrees Buffered.simulates)).run hfollows hread
  obtain ⟨-, -, hstate⟩ := Latch.call_eq_ok hplain
  obtain ⟨after, hperform, hrest, hcharged⟩ :=
    hfollows.discard_ok hnone (Value.discard_of_read hroom hstate)
  exact ⟨after, hperform, hrest.trans hlast.state.input.content.symm,
    hcharged.trans hlast.state.nesting.symm⟩

/-- A value is discarded exactly where a complete message stands, and then no more than this
message is passed and counted. Where a value can be read, a discard comes to the same place. -/
theorem discard_message (hsteady : source.Steady) (hdynamic : config.dynamicAlloc = true)
    (hreached : Reached config source reader) (hfree : reader.error? = none) :
    (∀ nesting, reader.state.nesting.TakesOne nesting →
      match messageLength config.tagOptions reader.unread with
      | .ok (some n) =>
          n ≤ reader.unread.length ∧ ∃ after, perform .discard reader = (.ok .done, after) ∧
            after.unread = reader.unread.drop n ∧ after.state.nesting = nesting ∧
              after.depth = reader.depth
      | .ok none => ∃ wanted got, (perform .discard reader).1 = .error (.truncated wanted got)
      | .error error => (perform .discard reader).1 = .error error) ∧
    ∀ value (final : Reader Buffered), Latch.call Value.read reader = (.ok value, final) →
      ∃ after, perform .discard reader = (.ok .done, after) ∧ after.unread = final.unread ∧
        after.state.nesting = final.state.nesting := by
  obtain ⟨plain, hfollows, hnone, hoptions, hroom⟩ := hreached.follows hsteady hdynamic hfree
  constructor
  · intro nesting htakes
    rw [← hoptions]
    exact hfollows.discard_takes hnone hroom htakes
  · intro value final hread
    exact hfollows.discard_read hnone hroom hread

/-- The second of two items, an array itself, a byte at a time and with an interruption. -/
theorem discard_message_nested :
    ∃ reader after : Reader Buffered,
      reader.unread = [0x92, 0xc0, 0xa1, 0x61, 0xff] ∧
      reader.state.nesting.frames = [{ kind := .array, remaining := 1 }] ∧
      perform .discard reader = (.ok .done, after) ∧ after.unread = [0xff] ∧
      after.state.nesting.frames = [{ kind := .array, remaining := 0 }] := by
  have hsteady : Source.Steady {
      deliveries := [.chunk [0x92, 0x01], .failure { kind := .interrupted, text := "again" },
        .chunk [0x92, 0xc0, 0xa1, 0x61, 0xff]]
      maxRead? := some 1 } := by decide
  obtain ⟨plain, hplain, hnesting, hinput, hfree⟩ : ∃ plain : Reader Bytes,
      ofInput { bufferSize := 1 } ([0x92, 0x01, 0x92, 0xc0, 0xa1, 0x61, 0xff] : Bytes) = .ok plain ∧
        (plain.run [.readTag, .readTag]).2.state.nesting =
          { frames := [{ kind := .array, remaining := 1 }] } ∧
        (plain.run [.readTag, .readTag]).2.state.input = [0x92, 0xc0, 0xa1, 0x61, 0xff] ∧
        (plain.run [.readTag, .readTag]).2.error? = none :=
    ⟨_, rfl, rfl, rfl, rfl⟩
  obtain ⟨start, hcreate, hfollows⟩ : ∃ start, create { bufferSize := 1 } _ = .ok start ∧
      start.Follows plain := by
    rcases ofInput_agrees { bufferSize := 1 } (hsteady.holds 1) with
      ⟨error, -, hfailed⟩ | ⟨start, before, hstart, hbefore, hfollows, -⟩
    · cases hplain.symm.trans hfailed
    · cases hplain.symm.trans hbefore
      exact ⟨start, hstart, hfollows⟩
  have hlast := (hfollows.run_eq [.readTag, .readTag]).2
  have hreached : Reached { bufferSize := 1 } _ (start.run [.readTag, .readTag]).2 :=
    .called (.called (.created hcreate) .readTag) .readTag
  generalize (start.run [.readTag, .readTag]).2 = reader at hlast hreached
  have hnow : reader.state.nesting = { frames := [{ kind := .array, remaining := 1 }] } :=
    hlast.state.nesting.trans hnesting
  have hunread : reader.unread = [0x92, 0xc0, 0xa1, 0x61, 0xff] :=
    hlast.state.input.content.trans hinput
  have htakes : reader.state.nesting.TakesOne { frames := [{ kind := .array, remaining := 0 }] } := by
    rw [hnow]
    exact @Nesting.TakesOne.counted _ { kind := .array, remaining := 1 } [] rfl rfl (.inl rfl) rfl
      Nat.one_pos
  have hlength : messageLength (Config.tagOptions { bufferSize := 1 })
      [0x92, 0xc0, 0xa1, 0x61, 0xff] = .ok (some 4) := by cbv
  have hdiscard := (discard_message hsteady rfl hreached (hlast.error.trans hfree)).1 _ htakes
  rw [hunread] at hdiscard
  simp only [hlength] at hdiscard
  obtain ⟨-, after, hperform, hrest, hcounted, -⟩ := hdiscard
  exact ⟨reader, after, hunread, by rw [hnow], hperform, hrest, by rw [hcounted]⟩

end Reader
end MessagePack
