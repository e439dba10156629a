import MessagePack.Proofs.Agreement
import MessagePack.Proofs.Ceiling
import MessagePack.Proofs.Cursor
import MessagePack.Proofs.Expressible
import MessagePack.Proofs.Listing
import MessagePack.Proofs.RoundTrip

/-!
The legacy format and its successor. What is accepted as legacy is accepted as it is now, and says
the same; a value that is written with the legacy headers can be read either way, its binary data
as strings.
-/

namespace MessagePack

namespace Config

variable {config : Config}

/-- The same settings in the format as it is now. -/
def current (config : Config) : Config :=
  { config with version := .v5 }

theorem Valid.current (hvalid : config.Valid) : config.current.Valid := by
  unfold Valid fault? at hvalid ⊢
  split at hvalid
  · cases hvalid
  · exact hvalid

theorem tagOptions_current (config : Config) :
    config.current.tagOptions = { config.tagOptions with version := .v5 } := by
  have hversion : config.current.effectiveVersion = .v5 := by
    unfold effectiveVersion
    split <;> rfl
  rw [tagOptions, hversion]
  rfl

end Config

/-! What is accepted as legacy is accepted as it is now. -/

namespace Header

variable {options : TagOptions} {form : Form} {bytes : Bytes} {found : Tag × Nat}

theorem accepted_current (haccepted : refusal? options form = none) :
    refusal? { options with version := .v5 } form = none := by
  unfold refusal? at haccepted ⊢
  split at haccepted
  · cases haccepted
  · next hreserved =>
      split at haccepted
      · cases haccepted
      · rw [if_neg hreserved, if_neg (by simp)]
        exact haccepted

theorem decode_current (hdecode : decode options bytes = .ok found) :
    decode { options with version := .v5 } bytes = .ok found := by
  cases bytes with
  | nil => cases hdecode
  | cons marker rest =>
      obtain ⟨tag, n⟩ := found
      obtain ⟨hsize, hlength, haccepted, hfound⟩ := decode_cons_iff.mp hdecode
      exact decode_cons_iff.mpr ⟨hsize, hlength, accepted_current haccepted, hfound⟩

end Header

namespace Tree

namespace Progress

variable {options : TagOptions} {limits : Limits} {progress after done : Progress} {id : NodeId}
  {depth : Nat}

theorem readElement_current (hread : progress.readElement options limits id depth = .ok after) :
    progress.readElement { options with version := .v5 } limits id depth = .ok after := by
  obtain ⟨found, hdecode, hrest⟩ := bind_eq_ok hread
  rw [readElement, Header.decode_current hdecode]
  exact hrest

theorem step_current (hstep : progress.step options limits = .ok after) :
    progress.step { options with version := .v5 } limits = .ok after := by
  unfold step at hstep ⊢
  split at hstep
  · exact hstep
  · split at hstep
    · next hleft => rwa [if_pos hleft]
    · next hleft =>
        rw [if_neg hleft]
        exact readElement_current hstep

theorem run_current (hrun : progress.run options limits = .ok done) :
    progress.run { options with version := .v5 } limits = .ok done := by
  fun_induction run options limits progress with
  | case1 progress hlevels =>
      rw [run, dif_pos hlevels]
      exact hrun
  | case2 progress hlevels after hstep ih =>
      rw [run_bind hlevels, step_current hstep]
      exact ih hrun
  | case3 progress hlevels error hstep => cases hrun

end Progress

variable {config : Config} {maxDepth : Nat} {bytes rest : Bytes} {tree : Tree}

theorem parseFront_current (hparse : parseFront config maxDepth bytes = .ok (tree, rest)) :
    parseFront config.current maxDepth bytes =
      .ok ({ tree with options := config.current.tagOptions }, rest) := by
  obtain ⟨hvalid, hnode, root, start, done, hinitial, hrun, rfl, rfl⟩ := parseFront_eq_ok hparse
  have hcurrent := Progress.run_current hrun
  rw [← Config.tagOptions_current] at hcurrent
  -- What a parse takes before it reads a byte does not ask for the version.
  have hstart : Progress.initial config.current bytes = .ok (root, start) := hinitial
  rw [parseFront_of_initial hvalid.current hnode hstart]
  exact congrArg (Except.map _) hcurrent

theorem parseWithin_current (hparse : parseWithin config maxDepth bytes = .ok tree) :
    parseWithin config.current maxDepth bytes =
      .ok { tree with options := config.current.tagOptions } := by
  rw [parseWithin, parseFront_current (parseFront_of_parseWithin hparse)]
  rfl

/-- Neither format is parsed where a parse cannot start for want of room. -/
theorem parse_unreserved (hvalid : config.Valid) (hnode : config.node = true)
    (hreserves : ¬config.Reserves) (hsome : bytes ≠ []) :
    ∃ requested, parse config bytes = .error (.resource requested) ∧
      parse config.current bytes = .error (.resource requested) := by
  obtain ⟨requested, hinitial⟩ := Progress.initial_unreserved hreserves hsome
  have hcurrent : Progress.initial config.current bytes = .error (.resource requested) := hinitial
  exact ⟨requested, parseWithin_of_refused hvalid hnode hinitial config.maxDepth,
    parseWithin_of_refused hvalid.current hnode hcurrent config.maxDepth⟩

end Tree

/-! What is written with the legacy headers. -/

/-- The tag that is read in the legacy format where this one was written. -/
def Tag.legacy : Tag → Tag
  | .bin length => .str length
  | .int value => if 0 ≤ value then .uint value.toUInt64 else .int value
  | tag => tag

namespace Value

variable {options : TagOptions}

theorem asRead_legacy (hversion : options.version = .v4) (value : Value) :
    value.tag.asRead options = value.tag.legacy := by
  cases value with
  | bin content => simp only [tag, Tag.asRead, Tag.legacy, hversion]
  | _ => rfl

/-- Nothing but an ext is without a header. -/
theorem encode_tag_of_native {value : Value} (hfloat : options.float = .native)
    (hext : ¬value.HoldsExt) : ∃ header, Header.encode options value.tag = .ok header := by
  cases value with
  | float bits | double bits => exact ⟨_, encode_native hfloat rfl⟩
  | ext type content => exact absurd True.intro hext
  | _ => exact ⟨_, rfl⟩

theorem hasEncoding_of_native {value : Value} (hfloat : options.float = .native)
    (hext : ¬value.HoldsExt) : value.HasEncoding options := by
  induction value using byElements with
  | hstep value ih =>
      obtain ⟨header, hencode⟩ := encode_tag_of_native hfloat hext
      exact hasEncoding_of_elements hencode fun element helement =>
        ih element helement fun hinside => hext (holdsExt_element helement hinside)

variable {config : Config} {value : Value} {bytes : Bytes}

/-- A tree of what is written of a value has the tags and the payloads of its parts. -/
theorem parse_legacy (hvalid : config.Valid) (hversion : config.version = .v4)
    (hnode : config.node = true) (hdynamic : config.dynamicAlloc = true)
    (hreserves : config.Reserves) (hfits : value.Fits)
    (hencoding : value.encoding config.tagOptions none = .ok bytes)
    (hdepth : value.depth ≤ config.maxDepth) (hsize : bytes.length ≤ config.maxSize)
    (hnodes : value.nodes ≤ config.maxNodes) :
    ∃ tree, Tree.parse config bytes = .ok tree ∧ tree.outline = value.outline Tag.legacy := by
  obtain ⟨message, rfl, hwritten⟩ := written hfits hencoding
  have hlimit : message.depth ≤ config.nodeDepthLimit config.maxDepth := by
    rw [config.nodeDepthLimit_of_dynamic hdynamic, hwritten.depth]
    exact hdepth
  obtain ⟨tree, hparse, -⟩ := Tree.parseWithin_ok hvalid hnode hreserves hwritten.complete hlimit
    hsize (by rw [hwritten.nodes]; exact hnodes)
  refine ⟨tree, hparse, (Tree.listing_of_parseWithin hparse).unique ?_⟩
  exact listing_encoding (asRead_legacy (hvalid.legacy hversion)) hfits hencoding

end Value

/-! Binary data, written as a string and read back as what it was. -/

namespace Writer

variable {config : Config} {content written : Bytes}

theorem length_of_encode_bin (hencode : encode config (State.bin content) = .ok written) :
    content.length < UInt32.size := by
  refine Nat.lt_of_not_le fun hlong => ?_
  have hlength : State.payloadLength content =
      throw (.tooBig content.length (UInt32.size - 1)) := if_neg (Nat.not_lt.mpr hlong)
  have hfails : ∀ state, (do State.bin content; State.finish : Attempt State Unit) state =
      (.error (.tooBig content.length (UInt32.size - 1)), state) := fun state => by
    rw [State.bin, State.payload, hlength]
    rfl
  obtain ⟨writer, -, hrest⟩ := bind_eq_ok hencode
  rcases hcall : Latch.call (do State.bin content; State.finish) writer with ⟨result, after⟩
  rw [hcall] at hrest
  obtain ⟨_, rfl, -⟩ := bind_eq_ok hrest
  obtain ⟨-, -, hstate⟩ := Latch.call_eq_ok hcall
  rw [hfails] at hstate
  cases hstate

/-- The header of a legacy string, and the data behind it. -/
theorem encode_bin (hvalid : config.Valid) (hversion : config.version = .v4)
    (hwriter : config.writer = true) (hshort : content.length < UInt32.size) :
    encode config (State.bin content) =
      .ok (Header.word (.forStr .v4 content.length) content.length ++ content) := by
  have hvalue : encode config (State.bin content) = Value.encode config .counted (.bin content) :=
    rfl
  obtain ⟨room, hroom⟩ := hvalid.room_deeper config.writeTracking
  have hheader : Header.encode config.tagOptions (.bin (UInt32.ofNat content.length)) =
      .ok (Header.word (.forStr .v4 content.length) content.length) := by
    simp only [Header.encode, hvalid.legacy hversion, UInt32.toNat_ofNat_of_lt' hshort]
    rfl
  have hopens : config.writeRoom.deeper = .ok room := hroom
  rw [hvalue, Value.encode_counted config (show Value.Fits (.bin content) from hshort),
    create_bind_ok hvalid hwriter, Value.encoding, Value.enclosed, hheader, hopens]
  rfl

end Writer

namespace Reader

namespace State

variable {state : State Bytes} {header content rest : Bytes} {length : UInt32} {room : Room}

theorem expectBin_ok (hversion : state.options.version = .v4)
    (hheader : Header.decode state.options header = .ok (.str length, header.length))
    (hinput : state.input = header ++ rest) (haccepts : state.nesting.Accepts 1)
    (hroom : state.nesting.room.deeper = .ok room) :
    expectBin state = (.ok length, { state with
      input := rest
      nesting := (state.nesting.charged 1).pushed { kind := .bin, remaining := length.toNat } }) := by
  have henter : (state.nesting.charged 1).enterTag (.bin length) = .ok
      ((state.nesting.charged 1).pushed { kind := .bin, remaining := length.toNat }) := by
    rw [Nesting.enterTag]
    simp only [Tag.opens?, Nesting.enter, Nesting.push_eq, Nesting.room_charged, hroom]
    rfl
  rw [expectBin, Attempt.get_bind]
  refine (Attempt.bind_of_ok
    (nextTag_of_entered hheader ?_ hinput haccepts.element henter)).trans rfl
  exact if_pos hversion

theorem expectBinary_ok (hversion : state.options.version = .v4)
    (hheader : Header.decode state.options header = .ok (.str length, header.length))
    (hlength : length.toNat = content.length) (hlimit : content.length ≤ state.maxAlloc)
    (hinput : state.input = header ++ (content ++ rest)) (haccepts : state.nesting.Accepts 1)
    (hroom : state.nesting.room.deeper = .ok room) :
    expectBinary state = (.ok content, state.passed 1 rest) := by
  have hbin := expectBin_ok hversion hheader hinput haccepts hroom
  rw [hlength] at hbin
  have hcopy : copyBytes content.length { state with
      input := content ++ rest
      nesting := (state.nesting.charged 1).pushed { kind := .bin, remaining := content.length } } =
      (.ok content, _) := copyBytes_ok rfl hlimit rfl rfl
  rw [expectBinary, Attempt.bind_of_ok hbin, hlength, Attempt.bind_of_ok hcopy,
    Attempt.bind_of_ok (leave_ok rfl)]
  rfl

end State

variable {config : Config} {source : Source} {content rest : Bytes}

/-- A new reader comes to stand where one stands that is new to the bytes behind. -/
theorem expectBinary_legacy (hvalid : config.Valid) (hversion : config.version = .v4)
    (hreader : config.reader = true) (hshort : content.length < UInt32.size)
    (halloc : content.length ≤ config.maxAlloc) (hsteady : source.Steady)
    (hcontent : source.content =
      Header.word (.forStr .v4 content.length) content.length ++ (content ++ rest)) :
    ∃ reader after, create config source = .ok reader ∧
      perform .expectBinary reader = (.ok (.bytes content), after) ∧
      after.depth = reader.depth ∧ after.cursor = { state := .ofBytes config rest } := by
  obtain ⟨state, hcreate, halike⟩ := create_alike hvalid hreader hsteady
  obtain ⟨room, hroom⟩ := hvalid.room_deeper config.readTracking
  have hlegacy := hvalid.legacy hversion
  have hlength : (UInt32.ofNat content.length).toNat = content.length :=
    UInt32.toNat_ofNat_of_lt' hshort
  have hheader : Header.decode config.tagOptions
      (Header.word (.forStr .v4 content.length) content.length) = .ok
        (.str (UInt32.ofNat content.length),
          (Header.word (.forStr .v4 content.length) content.length).length) := by
    have hdecode := @Header.decode_str config.tagOptions .v4 _ hshort [] fun _ => rfl
    rwa [List.append_nil] at hdecode
  have hplain : State.expectBinary (.ofBytes config source.content) =
      (.ok content, .ofBytes config rest) :=
    State.expectBinary_ok hlegacy hheader hlength halloc hcontent
      (fun _ top htop => by cases htop) hroom
  have hperform : perform .expectBinary { state := .ofBytes config source.content } =
      (.ok (.bytes content), { state := .ofBytes config rest }) :=
    Latch.call_of_ok (Attempt.bind_of_ok hplain)
  obtain ⟨hreply, hafter⟩ := perform_agrees Buffered.simulates .expectBinary _ _
    (show Follows { state } { state := .ofBytes config source.content } from ⟨halike, rfl⟩)
  rw [hperform] at hreply hafter
  have hdepth : depth { state } = 0 := congrArg Nesting.depth halike.nesting
  refine ⟨_, _, hcreate, Prod.ext hreply rfl, ?_, Follows.cursor_eq hafter⟩
  rw [hdepth]
  exact congrArg Nesting.depth hafter.state.nesting

end Reader

/-- The legacy format is read as it is now. A value without an ext is written with headers that a
legacy decoder accepts, and its tree is the same in both formats, where there is room to start one;
binary data comes back as strings, unless it is asked for. -/
theorem legacy_compatible {config : Config} (hvalid : config.Valid)
    (hversion : config.version = .v4) :
    (config.writer = true → config.node = true → config.dynamicAlloc = true →
      config.float = .native → ∀ value : Value, ¬value.HoldsExt →
        ∃ bytes, value.encoding config.tagOptions none = .ok bytes ∧
          (bytes.length < UInt32.size →
            (∀ framing : Value.Framing, (framing = .built →
                config.builder = true ∧ config.builderPageSize ≤ Builder.maxPage) →
              value.encode config framing = .ok bytes) ∧
            Header.Listing config.tagOptions bytes (value.outline Tag.legacy) ∧
            (value.depth ≤ config.maxDepth → bytes.length ≤ config.maxSize →
              value.nodes ≤ config.maxNodes → config.Reserves →
                ∃ tree, Tree.parse config bytes = .ok tree ∧
                  Tree.parse config.current bytes =
                    .ok { tree with options := config.current.tagOptions } ∧
                  tree.outline = value.outline Tag.legacy) ∧
            (¬config.Reserves → ∃ requested,
              Tree.parse config bytes = .error (.resource requested) ∧
                Tree.parse config.current bytes = .error (.resource requested)))) ∧
    (∀ maxDepth bytes tree, Tree.parseWithin config maxDepth bytes = .ok tree →
      Tree.parseWithin config.current maxDepth bytes =
        .ok { tree with options := config.current.tagOptions }) ∧
    (config.writer = true → ∀ content : Bytes,
      (content.length < UInt32.size →
        ∃ written, Writer.encode config (Writer.State.bin content) = .ok written) ∧
      ∀ written, Writer.encode config (Writer.State.bin content) = .ok written →
        ∀ reading : Config, reading.Valid → reading.version = .v4 → reading.reader = true →
          content.length ≤ reading.maxAlloc →
          ∀ (source : Source) (rest : Bytes), source.Steady → source.content = written ++ rest →
            ∃ reader after, Reader.create reading source = .ok reader ∧
              Reader.perform .expectBinary reader = (.ok (.bytes content), after) ∧
              after.depth = reader.depth ∧ after.cursor = { state := .ofBytes reading rest }) := by
  refine ⟨fun hwriter hnode hdynamic hfloat value hext => ?_,
    fun maxDepth bytes tree => Tree.parseWithin_current, fun hwriter content => ⟨?_, ?_⟩⟩
  · obtain ⟨bytes, hencoding, -, hfits⟩ :=
      Value.hasEncoding_of_native (show config.tagOptions.float = .native from hfloat) hext
    refine ⟨bytes, hencoding, fun hshort => ⟨fun framing hframing => ?_, ?_, ?_, ?_⟩⟩
    · exact (Value.encode_framed_eq_encoding hvalid hwriter hdynamic hframing
        (hfits hshort)).trans hencoding
    · exact Value.listing_encoding (Value.asRead_legacy (hvalid.legacy hversion)) (hfits hshort)
        hencoding
    · intro hdepth hsize hnodes hreserves
      obtain ⟨tree, hparse, houtline⟩ := Value.parse_legacy hvalid hversion hnode hdynamic
        hreserves (hfits hshort) hencoding hdepth hsize hnodes
      exact ⟨tree, hparse, Tree.parseWithin_current hparse, houtline⟩
    · obtain ⟨message, rfl, hwritten⟩ := Value.written (hfits hshort) hencoding
      exact fun hreserves => Tree.parse_unreserved hvalid hnode hreserves
        (List.ne_nil_of_length_pos hwritten.complete.length_pos)
  · exact fun hshort => ⟨_, Writer.encode_bin hvalid hversion hwriter hshort⟩
  · intro written hencode reading hreading hlegacy hreader halloc source rest hsteady hcontent
    have hshort := Writer.length_of_encode_bin hencode
    rw [Writer.encode_bin hvalid hversion hwriter hshort] at hencode
    cases hencode
    rw [List.append_assoc] at hcontent
    exact Reader.expectBinary_legacy hreading hlegacy hreader hshort halloc hsteady hcontent

/-- Bytes that are no text as an item of an array, and 32 of them in front of a nil. -/
theorem legacy_compatible_bin :
    ∃ (config : Config) (tree : Tree) (reader after : Reader Buffered),
      config = { compatibility := true, version := .v4, maxDepth := 2 } ∧
      Tree.parse config [0x93, 0xa1, 0xff, 0x81, 0x01, 0xa1, 0x61, 0xc0] = .ok tree ∧
      Tree.parse config.current [0x93, 0xa1, 0xff, 0x81, 0x01, 0xa1, 0x61, 0xc0] =
        .ok { tree with options := config.current.tagOptions } ∧
      tree.outline = [(.array 3, none), (.str 1, some [0xff]), (.map 1, none), (.uint 1, none),
        (.str 1, some [0x61]), (.nil, none)] ∧
      Reader.create config { deliveries := [.chunk (0xda :: 0 :: 32 :: List.replicate 32 0xff),
        .chunk [0xc0]] } = .ok reader ∧
      Reader.perform .expectBinary reader = (.ok (.bytes (List.replicate 32 0xff)), after) ∧
      after.cursor.state.input = [0xc0] := by
  obtain ⟨config, hconfig⟩ : ∃ config : Config,
      config = { compatibility := true, version := .v4, maxDepth := 2 } := ⟨_, rfl⟩
  obtain ⟨value, hvalue⟩ : ∃ value : Value,
      value = .array [.bin [0xff], .map [(.int 1, .str "a")], .nil] := ⟨_, rfl⟩
  obtain ⟨hwritten, -, hbin⟩ := @legacy_compatible config
    (by rw [hconfig]; decide) (by rw [hconfig])
  have hext : ¬value.HoldsExt := by
    rw [hvalue]
    simp [Value.HoldsExt, Value.HoldsExtItems, Value.HoldsExtEntries]
  obtain ⟨bytes, hencoding, hshort⟩ := hwritten (by rw [hconfig]) (by rw [hconfig])
    (by rw [hconfig]) (by rw [hconfig]) value hext
  have hbytes : value.encoding config.tagOptions none =
      .ok [0x93, 0xa1, 0xff, 0x81, 0x01, 0xa1, 0x61, 0xc0] := by
    rw [hvalue, hconfig]
    decide +kernel
  obtain rfl := Except.ok.inj (hencoding.symm.trans hbytes)
  obtain ⟨-, -, hparsed, -⟩ := hshort (by decide)
  obtain ⟨tree, hlegacy, hcurrent, houtline⟩ := hparsed
    (by rw [hvalue, hconfig]; decide) (by rw [hconfig]; decide) (by rw [hvalue, hconfig]; decide)
    (by rw [hconfig]; decide)
  have hparts : value.outline Tag.legacy = [(.array 3, none), (.str 1, some [0xff]),
      (.map 1, none), (.uint 1, none), (.str 1, some [0x61]), (.nil, none)] := by
    rw [hvalue]
    decide +kernel
  obtain ⟨hwrites, hreads⟩ := hbin (by rw [hconfig]) (List.replicate 32 0xff)
  obtain ⟨written, hwritten⟩ := hwrites (by decide)
  obtain rfl : written = 0xda :: 0 :: 32 :: List.replicate 32 0xff := by
    rw [Writer.encode_bin (by rw [hconfig]; decide) (by rw [hconfig]) (by rw [hconfig])
      (by decide)] at hwritten
    exact (Except.ok.inj hwritten).symm
  have hsteady : Source.Steady { deliveries := [.chunk (0xda :: 0 :: 32 :: List.replicate 32 0xff),
      .chunk [0xc0]] } := by decide
  obtain ⟨reader, after, hcreate, hperform, -, hcursor⟩ := hreads _ hwritten config
    (by rw [hconfig]; decide) (by rw [hconfig]) (by rw [hconfig]) (by rw [hconfig]; decide)
    _ [0xc0] hsteady rfl
  refine ⟨config, tree, reader, after, hconfig, hlegacy, hcurrent, houtline.trans hparts, hcreate,
    hperform, ?_⟩
  rw [hcursor]
  rfl

/-- A nil under a page size that is valid and that no allocation grants. -/
theorem legacy_unreserved :
    ∃ config : Config, config = {
        compatibility := true
        version := .v4
        nodePageSize := 10000000000000000000 } ∧
      config.Valid ∧ Value.nil.encoding config.tagOptions none = .ok [0xc0] ∧
      Tree.parse config [0xc0] = .error (.resource 10000000000000000000) ∧
      Tree.parse config.current [0xc0] = .error (.resource 10000000000000000000) :=
  ⟨_, rfl, by decide, rfl, by cbv, by cbv⟩

end MessagePack
