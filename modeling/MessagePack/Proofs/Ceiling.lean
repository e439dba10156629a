import MessagePack.Proofs.Confined
import MessagePack.Proofs.Limits
import MessagePack.Proofs.Spelling

/-!
The ceiling on nesting where memory is not allocated as it is needed. Writers and readers hold it
against the levels of a value, which count a str, a bin or an ext that is open; trees hold it
against the depth, which does not.
-/

namespace MessagePack

/-- Something nests too deep. -/
def TooDeep (outcome : Except Error α) : Prop :=
  ∃ depth limit, outcome = .error (.tooDeep depth limit)

theorem not_tooDeep_ok {value : α} : ¬TooDeep (.ok value : Except Error α) := by
  rintro ⟨depth, limit, hdeep⟩
  cases hdeep

theorem tooDeep_map {outcome : Except Error α} {change : α → β} :
    TooDeep (outcome.map change) ↔ TooDeep outcome := by
  cases outcome with
  | ok value => exact iff_of_false not_tooDeep_ok not_tooDeep_ok
  | error error =>
      constructor
      · rintro ⟨depth, limit, hdeep⟩
        cases hdeep
        exact ⟨depth, limit, rfl⟩
      · rintro ⟨depth, limit, hdeep⟩
        cases hdeep
        exact ⟨depth, limit, rfl⟩

theorem Room.tooDeep_capped {depth limit levels : Nat} {value : α} :
    TooDeep (capped depth limit levels value) ↔ limit < depth + levels := by
  unfold capped
  split
  · next hfits => exact iff_of_false not_tooDeep_ok (by omega)
  · next hover => exact iff_of_true ⟨_, _, rfl⟩ (by omega)

/-! A tree. With a lower limit on the depth, a run comes to the same or goes too deep. -/

namespace Tree
namespace Progress

variable {options : TagOptions} {limits : Limits} {progress after : Progress} {id : NodeId}
  {maxDepth depth count : Nat}

/-- The outcome, unless something nests too deep. -/
def OrTooDeep (outcome expected : Except Error α) : Prop :=
  outcome = expected ∨ TooDeep outcome

theorem OrTooDeep.bind {first expected : Except Error α} {next later : α → Except Error β}
    (hfirst : OrTooDeep first expected) (hnext : ∀ value, OrTooDeep (next value) (later value)) :
    OrTooDeep (first >>= next) (expected >>= later) := by
  rcases hfirst with rfl | ⟨depth, limit, rfl⟩
  · cases first with
    | error error => exact .inl rfl
    | ok value => exact hnext value
  · exact .inr ⟨depth, limit, rfl⟩

theorem openRun_orTooDeep (hle : maxDepth ≤ limits.maxDepth) (progress : Progress) :
    OrTooDeep (progress.openRun { limits with maxDepth } depth count)
      (progress.openRun limits depth count) := by
  unfold openRun
  by_cases hdepth : maxDepth < depth
  · exact .inr ⟨depth, maxDepth, if_pos hdepth⟩
  · have hbelow : ¬limits.maxDepth < depth := by omega
    left
    simp only [if_neg hdepth, if_neg hbelow]

theorem readElement_orTooDeep (hle : maxDepth ≤ limits.maxDepth) (progress : Progress) :
    OrTooDeep (progress.readElement options { limits with maxDepth } id depth)
      (progress.readElement options limits id depth) := by
  refine OrTooDeep.bind (.inl rfl) fun (tag, size) => OrTooDeep.bind (.inl rfl) fun body => ?_
  dsimp only
  split
  · exact .inl rfl
  · exact (openRun_orTooDeep hle body).bind fun _ => .inl rfl
  · exact .inl rfl

theorem step_orTooDeep (options : TagOptions) (hle : maxDepth ≤ limits.maxDepth)
    (progress : Progress) :
    OrTooDeep (progress.step options { limits with maxDepth }) (progress.step options limits) := by
  unfold step
  split
  · exact .inl rfl
  · split
    · exact .inl rfl
    · exact readElement_orTooDeep hle _

theorem run_orTooDeep (options : TagOptions) (hle : maxDepth ≤ limits.maxDepth)
    (progress : Progress) :
    OrTooDeep (progress.run options { limits with maxDepth }) (progress.run options limits) := by
  fun_induction run options limits progress with
  | case1 progress hlevels =>
      rw [run, dif_pos hlevels]
      exact .inl rfl
  | case2 progress hlevels after hstep ih =>
      rw [run_bind hlevels]
      rcases step_orTooDeep options hle progress with hsame | ⟨_, _, hdeep⟩
      · rw [hsame, hstep]
        exact ih
      · rw [hdeep]
        exact .inr ⟨_, _, rfl⟩
  | case3 progress hlevels error hstep =>
      rw [run_bind hlevels]
      rcases step_orTooDeep options hle progress with hsame | ⟨_, _, hdeep⟩
      · rw [hsame, hstep]
        exact .inl rfl
      · rw [hdeep]
        exact .inr ⟨_, _, rfl⟩

end Progress

variable {config : Config} {message : Message} {maxDepth : Nat}

/-- If a message keeps within the size and the nodes, only its depth is left to refuse. -/
theorem tooDeep_parseWithin_reserved (hvalid : config.Valid) (hnode : config.node = true)
    (hreserves : config.Reserves) (hcomplete : message.Complete config.tagOptions)
    (hsize : message.bytes.length ≤ config.maxSize) (hnodes : message.nodes ≤ config.maxNodes) :
    TooDeep (parseWithin config maxDepth message.bytes) ↔
      config.nodeDepthLimit maxDepth < message.depth := by
  by_cases hdepth : message.depth ≤ config.nodeDepthLimit maxDepth
  · obtain ⟨tree, hparse⟩ : ∃ tree, parseWithin config maxDepth message.bytes = .ok tree :=
      parseWithin_admitted hvalid hnode hreserves hcomplete ⟨hdepth, hsize, hnodes⟩
    rw [hparse]
    exact iff_of_false not_tooDeep_ok (by omega)
  · -- with room for its depth the message is parsed, so only the depth can be what is refused
    refine iff_of_true ?_ (by omega)
    have hroom : 1 ≤ config.maxNodes := by
      have hone := Message.length_le_nodesOf [message]
      simp only [Message.nodesOf, List.length_singleton] at hone
      omega
    let free : Limits := { Limits.of config maxDepth with maxDepth := message.depth }
    have hlower : (Limits.of config maxDepth).maxDepth ≤ free.maxDepth :=
      Nat.le_of_lt (Nat.lt_of_not_le hdepth)
    obtain ⟨root, start, hinitial⟩ :=
      Progress.initial_ok hreserves (List.ne_nil_of_length_pos hcomplete.length_pos)
    obtain ⟨arena, rfl, hcount, hgranted, -⟩ := Progress.start_of_initial hinitial
    obtain ⟨done, hrun, -⟩ : ∃ done, (Progress.start root arena (message.bytes ++ [])).run
        config.tagOptions free = .ok done ∧ done.rest = [] :=
      run_start_ok hcomplete hcount hgranted (Nat.le_refl _) hsize hnodes []
    obtain ⟨error, herror, -⟩ := run_start_error hcomplete hcount hgranted
      (show 1 ≤ (Limits.of config maxDepth).maxNodes from hroom)
      (fun hadmits => hdepth hadmits.depth) []
    rw [List.append_nil] at hrun herror
    have hlowered : Progress.OrTooDeep ((Progress.start root arena message.bytes).run
        config.tagOptions (.of config maxDepth)) _ :=
      Progress.run_orTooDeep config.tagOptions hlower _
    rcases hlowered with hsame | ⟨depth, limit, hdeep⟩
    · rw [hrun, herror] at hsame
      cases hsame
    · rw [parseWithin, parseFront_of_initial hvalid hnode hinitial, hdeep]
      exact ⟨depth, limit, rfl⟩

/-- Where a parse has no room to start, nothing of it is too deep. -/
theorem tooDeep_parseWithin_iff (hvalid : config.Valid) (hnode : config.node = true)
    (hcomplete : message.Complete config.tagOptions)
    (hsize : message.bytes.length ≤ config.maxSize) (hnodes : message.nodes ≤ config.maxNodes) :
    TooDeep (parseWithin config maxDepth message.bytes) ↔
      config.Reserves ∧ config.nodeDepthLimit maxDepth < message.depth := by
  by_cases hreserves : config.Reserves
  · rw [tooDeep_parseWithin_reserved hvalid hnode hreserves hcomplete hsize hnodes]
    exact (and_iff_right hreserves).symm
  · obtain ⟨requested, hparse⟩ := parseWithin_unreserved hvalid hnode hreserves maxDepth
      (List.ne_nil_of_length_pos hcomplete.length_pos)
    rw [hparse]
    refine iff_of_false ?_ fun ⟨hgranted, _⟩ => hreserves hgranted
    rintro ⟨depth, limit, hdeep⟩
    cases hdeep

theorem parseWithin_not_tooBig (hvalid : config.Valid) (hnode : config.node = true)
    (hcomplete : message.Complete config.tagOptions)
    (hsize : message.bytes.length ≤ config.maxSize) (hnodes : message.nodes ≤ config.maxNodes)
    {size limit : Nat} :
    parseWithin config maxDepth message.bytes ≠ .error (.tooBig size limit) := by
  intro hbig
  by_cases hreserves : config.Reserves
  · by_cases hdepth : message.depth ≤ config.nodeDepthLimit maxDepth
    · obtain ⟨tree, hparse⟩ := parseWithin_admitted hvalid hnode hreserves hcomplete
        (show (Limits.of config maxDepth).Admits message from ⟨hdepth, hsize, hnodes⟩)
      cases hparse.symm.trans hbig
    · obtain ⟨depth, most, hparse⟩ :=
        (tooDeep_parseWithin_iff hvalid hnode hcomplete hsize hnodes).mpr
          ⟨hreserves, Nat.lt_of_not_le hdepth⟩
      cases hparse.symm.trans hbig
  · obtain ⟨requested, hparse⟩ := parseWithin_unreserved hvalid hnode hreserves maxDepth
      (List.ne_nil_of_length_pos hcomplete.length_pos)
    cases hparse.symm.trans hbig

end Tree

/-! What is written of a value, with the legacy headers as well. -/

theorem Tag.isCompound_asRead (options : TagOptions) (tag : Tag) :
    (tag.asRead options).isCompound = tag.isCompound := by
  cases tag with
  | int value => simp only [asRead]; split <;> rfl
  | rawFloat bits | rawDouble bits | bin length => simp only [asRead]; split <;> rfl
  | _ => rfl

namespace Value

variable {options : TagOptions}

/-- The legacy format has no bin: its bytes are read back as text. -/
def Legible (options : TagOptions) (value : Value) : Prop :=
  options.version = .v4 → ∀ content, Within (.bin content) value →
    (ofUtf8? content).isSome = true

theorem Legible.element {value element : Value} (hlegible : value.Legible options)
    (helement : element ∈ value.elements) : element.Legible options :=
  fun hversion content hpart => hlegible hversion content (.element helement hpart)

/-- The message is what is there of the value. -/
structure Written (options : TagOptions) (value : Value) (message : Message) : Prop where
  complete : message.Complete options
  depth : message.depth = value.depth
  nodes : message.nodes = value.nodes
  levels : message.levels = value.levels
  small : ∀ limit, (∀ part, Within part value → part.payload.length ≤ limit) →
    message.Small limit
  legible : value.Legible options → ∃ found, message.value = .ok found

/-- The same of elements. -/
structure WrittenItems (options : TagOptions) (items : List Value) (messages : List Message) :
    Prop where
  length : messages.length = items.length
  complete : ∀ message ∈ messages, message.Complete options
  depth : Message.depths messages = depthItems items
  nodes : Message.nodesOf messages = nodesItems items
  levels : Message.levelsOf messages = levelsItems items
  small : ∀ limit, (∀ item ∈ items, ∀ part, Within part item → part.payload.length ≤ limit) →
    ∀ message ∈ messages, message.Small limit
  legible : (∀ item ∈ items, item.Legible options) → ∃ found, Message.values messages = .ok found

theorem WrittenItems.nil : WrittenItems options [] [] :=
  ⟨rfl, fun _ hnone => absurd hnone List.not_mem_nil, rfl, rfl, rfl,
    fun _ _ _ hnone => absurd hnone List.not_mem_nil, fun _ => ⟨[], rfl⟩⟩

theorem WrittenItems.cons {item : Value} {items : List Value} {message : Message}
    {messages : List Message} (hitem : Written options item message)
    (hitems : WrittenItems options items messages) :
    WrittenItems options (item :: items) (message :: messages) := by
  refine ⟨by rw [List.length_cons, List.length_cons, hitems.length], ?_, ?_, ?_, ?_, ?_, ?_⟩
  · intro other hother
    rcases List.mem_cons.mp hother with rfl | hother
    · exact hitem.complete
    · exact hitems.complete other hother
  · rw [Message.depths, depthItems, hitem.depth, hitems.depth]
  · rw [Message.nodesOf, nodesItems, hitem.nodes, hitems.nodes]
  · rw [Message.levelsOf, levelsItems, hitem.levels, hitems.levels]
  · intro limit hparts other hother
    rcases List.mem_cons.mp hother with rfl | hother
    · exact hitem.small limit (hparts item (.head _))
    · exact hitems.small limit (fun other hother => hparts other (.tail _ hother)) other hother
  · intro hlegible
    obtain ⟨first, hfirst⟩ := hitem.legible (hlegible item (.head _))
    obtain ⟨rest, hrest⟩ := hitems.legible fun other hother => hlegible other (.tail _ hother)
    exact ⟨first :: rest, Message.values_cons_eq_ok.mpr ⟨first, rest, hfirst, hrest, rfl⟩⟩

theorem written_items {items : List Value} {text : Bytes}
    (hwritten : ∀ item ∈ items, ∀ bytes, item.Fits → item.encoding options none = .ok bytes →
      ∃ message, message.bytes = bytes ∧ Written options item message)
    (hfits : FitsItems items) (htext : itemsEncoding options none items = .ok text) :
    ∃ messages, Message.text messages = text ∧ WrittenItems options items messages := by
  induction items generalizing text with
  | nil =>
      cases htext
      exact ⟨[], rfl, .nil⟩
  | cons item items ih =>
      obtain ⟨head, hhead, hrest⟩ := bind_eq_ok htext
      obtain ⟨tail, htail, hpure⟩ := bind_eq_ok hrest
      cases hpure
      obtain ⟨message, rfl, hitem⟩ := hwritten item (.head _) head hfits.1 hhead
      obtain ⟨messages, rfl, hitems⟩ :=
        ih (fun other hother => hwritten other (.tail _ hother)) hfits.2 htail
      exact ⟨message :: messages, rfl, .cons hitem hitems⟩

/-- Whatever is legible can be read back, if not as what it was. -/
theorem value_of_legible {value : Value} {header : Bytes} {children : List Message}
    (hlegible : value.Legible options)
    (hchildren : ∃ found, Message.values children = .ok found) :
    ∃ found, (Message.node header (value.tag.asRead options) value.payload children).value =
      .ok found := by
  obtain ⟨found, hfound⟩ := hchildren
  cases value with
  | int value =>
      simp only [tag, Tag.asRead]
      split <;> exact ⟨_, rfl⟩
  | str text =>
      refine ⟨.str text, ?_⟩
      simp only [tag, Tag.asRead, Message.value, payload, ofText, ofUtf8_utf8]
  | bin content =>
      cases hversion : options.version with
      | v5 =>
          refine ⟨.bin content, ?_⟩
          simp only [tag, Tag.asRead, hversion, Message.value, payload]
      | v4 =>
          obtain ⟨text, htext⟩ := Option.isSome_iff_exists.mp (hlegible hversion content (.self _))
          refine ⟨.str text, ?_⟩
          simp only [tag, Tag.asRead, hversion, Message.value, payload, ofText, htext]
  | array items =>
      refine ⟨.array found, ?_⟩
      simp only [tag, Tag.asRead, Message.value, hfound, Except.map]
  | map entries =>
      refine ⟨.map (paired found), ?_⟩
      simp only [tag, Tag.asRead, Message.value, hfound, Except.map]
  | _ => exact ⟨_, rfl⟩

theorem written {value : Value} {bytes : Bytes} (hfits : value.Fits)
    (hencoding : value.encoding options none = .ok bytes) :
    ∃ message, message.bytes = bytes ∧ Written options value message := by
  induction value using byElements generalizing bytes with
  | hstep value ih =>
      rw [encoding_eq] at hencoding
      obtain ⟨header, hencode, hrest⟩ := bind_eq_ok hencoding
      obtain ⟨inner, hinner, hrest⟩ := bind_eq_ok hrest
      rw [Room.entered_none] at hinner
      cases hinner
      obtain ⟨text, htext, hpure⟩ := bind_eq_ok hrest
      cases hpure
      obtain ⟨messages, rfl, hitems⟩ := written_items
        (fun element helement bytes hfits => ih element helement hfits) (fits_elements hfits) htext
      have hheader := Header.decode_encoded hencode
      refine ⟨.node header (value.tag.asRead options) value.payload messages, ?_,
        .node hheader ?_ ?_ hitems.complete, ?_, ?_, ?_, fun limit hparts => .node ?_ ?_, ?_⟩
      · rw [Message.bytes, List.append_assoc]
      · rw [Tag.payloadLength_asRead, length_payload hfits]
      · rw [Tag.childCount_asRead, hitems.length, length_elements hfits]
      · rw [Message.depth, Tag.childCount_asRead, hitems.depth, depth_eq]
        cases value.tag.childCount? <;> rfl
      · rw [Message.nodes, hitems.nodes, nodes_eq]
      · rw [Message.levels, Tag.isCompound_asRead, hitems.levels, levels_eq]
      · exact hparts value (.self value)
      · exact hitems.small limit fun element helement part hpart =>
          hparts part (.element helement hpart)
      · exact fun hlegible => value_of_legible hlegible
          (hitems.legible fun element helement => hlegible.element helement)

variable {config : Config} {value : Value} {bytes : Bytes} {source : Source}

theorem encoding_of_encode (hfits : value.Fits)
    (hencode : value.encode { config with dynamicAlloc := true } .counted = .ok bytes) :
    value.encoding config.tagOptions none = .ok bytes := by
  rw [encode_counted _ hfits] at hencode
  obtain ⟨_, -, hencoding⟩ := bind_eq_ok hencode
  have hroom : Config.writeRoom { config with dynamicAlloc := true } = none := by
    simp [Config.writeRoom, Draft.initial, Nesting.room, Config.trackingLimit]
  rwa [hroom] at hencoding

theorem tooDeep_encode_iff (hvalid : config.Valid) (hwriter : config.writer = true)
    (htracking : config.writeTracking = true) (hdynamic : config.dynamicAlloc = false)
    (hfits : value.Fits) (hencoding : value.encoding config.tagOptions none = .ok bytes) :
    TooDeep (value.encode config .counted) ↔ config.maxDepthWithoutAlloc < value.levels := by
  have hroom : config.writeRoom = some (0, config.maxDepthWithoutAlloc) := by
    simp [Config.writeRoom, Draft.initial, Nesting.room, Nesting.depth, htracking,
      Config.trackingLimit, hdynamic]
  have hcapped : value.encode config .counted =
      Room.capped 0 config.maxDepthWithoutAlloc value.levels bytes := by
    rw [encode_counted config hfits, hroom, Writer.create_bind_ok hvalid hwriter]
    exact encoding_capped (Nat.zero_le _) hencoding
  rw [hcapped, Room.tooDeep_capped, Nat.zero_add]

section Message

variable {message : Message} (hvalid : config.Valid) (hdynamic : config.dynamicAlloc = false)
  (hwritten : Written config.tagOptions value message)

include hvalid hdynamic hwritten

theorem tooDeep_parse_iff (hnode : config.node = true)
    (hdepth : message.bytes.length ≤ config.maxDepth)
    (hsize : message.bytes.length ≤ config.maxSize)
    (hnodes : message.bytes.length ≤ config.maxNodes) :
    TooDeep (Tree.parse config message.bytes) ↔
      config.Reserves ∧ config.maxDepthWithoutAlloc < value.depth := by
  have hcomplete := hwritten.complete
  have hbelow := Nat.le_trans message.depth_le_nodes hcomplete.nodes_le
  have hlimit : config.nodeDepthLimit config.maxDepth =
      min config.maxDepth config.maxDepthWithoutAlloc := by
    simp [Config.nodeDepthLimit, hdynamic]
  rw [Tree.parse, Tree.tooDeep_parseWithin_iff hvalid hnode hcomplete hsize
    (Nat.le_trans hcomplete.nodes_le hnodes), hlimit, hwritten.depth]
  rw [hwritten.depth] at hbelow
  refine and_congr_right fun _ => ?_
  omega

theorem readWhole_of_ceiling (hreader : config.reader = true)
    (htracking : config.readTracking = true) (hsteady : source.Steady)
    (hcontent : source.content = message.bytes)
    (halloc : ∀ part, Within part value → part.payload.length ≤ config.maxAlloc) :
    (Reader.create config source >>= readWhole) =
      (message.valueIn (some (0, config.maxDepthWithoutAlloc))).map
        fun value => (value, true) := by
  have hroom : (Reader.State.ofBytes config message.bytes).nesting.room =
      some (0, config.maxDepthWithoutAlloc) := by
    simp [Reader.State.ofBytes, Nesting.room, Nesting.depth, htracking, Config.trackingLimit,
      hdynamic]
  rw [readWhole_result hvalid hreader hsteady hwritten.complete
    (hwritten.small config.maxAlloc halloc) hcontent, hroom]

end Message

/-- A ceiling is held against the levels of a value where it is written or read, and against its
depth where a tree is made of it. No tree is made where a parse has no room to start. -/
theorem tooDeep_iff_levels (hvalid : config.Valid) (hreader : config.reader = true)
    (hwriter : config.writer = true) (hnode : config.node = true)
    (hreadTracking : config.readTracking = true) (hwriteTracking : config.writeTracking = true)
    (hdynamic : config.dynamicAlloc = false) (hfits : value.Fits)
    (hencode : value.encode { config with dynamicAlloc := true } .counted = .ok bytes)
    (hdepth : bytes.length ≤ config.maxDepth) (hsize : bytes.length ≤ config.maxSize)
    (hnodes : bytes.length ≤ config.maxNodes)
    (halloc : ∀ part, Within part value → part.payload.length ≤ config.maxAlloc)
    (hsteady : source.Steady) (hcontent : source.content = bytes) :
    (TooDeep (value.encode config .counted) ↔ config.maxDepthWithoutAlloc < value.levels) ∧
    (TooDeep (Tree.parse config bytes) ↔
      config.Reserves ∧ config.maxDepthWithoutAlloc < value.depth) ∧
    (¬config.Reserves → ∃ requested, Tree.parse config bytes = .error (.resource requested)) ∧
    (TooDeep (Reader.create config source >>= readWhole) →
      config.maxDepthWithoutAlloc < value.levels) ∧
    (value.Legible config.tagOptions → config.maxDepthWithoutAlloc < value.levels →
      TooDeep (Reader.create config source >>= readWhole)) ∧
    value.depth ≤ value.levels ∧ value.levels ≤ value.depth + 1 := by
  have hencoding := encoding_of_encode hfits hencode
  obtain ⟨message, rfl, hwritten⟩ := written hfits hencoding
  have hread := readWhole_of_ceiling hvalid hdynamic hwritten hreader hreadTracking hsteady
    hcontent halloc
  refine ⟨tooDeep_encode_iff hvalid hwriter hwriteTracking hdynamic hfits hencoding,
    tooDeep_parse_iff hvalid hdynamic hwritten hnode hdepth hsize hnodes, fun hreserves => ?_, ?_,
    ?_, depth_levels value⟩
  · exact Tree.parseWithin_unreserved hvalid hnode hreserves config.maxDepth
      (List.ne_nil_of_length_pos hwritten.complete.length_pos)
  · intro hdeep
    rw [hread, tooDeep_map] at hdeep
    refine Nat.lt_of_not_le fun hfits => ?_
    rw [Message.valueIn_of_fits message 0 (by rw [hwritten.levels]; omega)] at hdeep
    obtain ⟨depth, limit, herror⟩ := hdeep
    cases message.value_error herror
  · intro hlegible hover
    obtain ⟨found, hfound⟩ := hwritten.legible hlegible
    rw [hread, tooDeep_map, hwritten.complete.valueIn_capped (Nat.zero_le _) hfound,
      Room.tooDeep_capped, hwritten.levels]
    omega

/-- A bin in two arrays, with room for two levels: too deep to be written or read, and not too deep
for a tree. -/
theorem tooDeep_iff_levels_bin :
    TooDeep ((Value.array [.array [.bin [9]]]).encode
        { dynamicAlloc := false, maxDepthWithoutAlloc := 2 } .counted) ∧
      TooDeep (Reader.create { dynamicAlloc := false, maxDepthWithoutAlloc := 2 }
        { deliveries := [.chunk [0x91, 0x91, 0xc4], .chunk [0x01, 0x09]] } >>= readWhole) ∧
      ¬TooDeep (Tree.parse { dynamicAlloc := false, maxDepthWithoutAlloc := 2 }
        [0x91, 0x91, 0xc4, 0x01, 0x09]) := by
  have hfits : (Value.array [.array [.bin [9]]]).Fits := by
    simp [Fits, FitsItems, UInt32.size]
  have hencode : (Value.array [.array [.bin [9]]]).encode { maxDepthWithoutAlloc := 2 } .counted =
      .ok [0x91, 0x91, 0xc4, 0x01, 0x09] := by
    rw [encode_counted _ hfits]
    rfl
  have halloc : ∀ part, Within part (.array [.array [.bin [9]]]) →
      part.payload.length ≤ 64 * 1024 * 1024 := by
    intro part hpart
    cases hpart with
    | self => decide
    | element hinner hpart =>
        cases List.mem_singleton.mp hinner
        cases hpart with
        | self => decide
        | element hbin hpart =>
            cases List.mem_singleton.mp hbin
            cases hpart with
            | self => decide
            | element hnone _ => cases hnone
  have hsteady : Source.Steady {
      deliveries := [.chunk [0x91, 0x91, 0xc4], .chunk [0x01, 0x09]] } := by
    refine ⟨fun delivery hmember => ?_, by decide⟩
    simp only [List.mem_cons, List.not_mem_nil, or_false] at hmember
    rcases hmember with rfl | rfl <;> trivial
  obtain ⟨hwriter, htree, -, -, hreader, -⟩ :=
    tooDeep_iff_levels (show Config.Valid { dynamicAlloc := false, maxDepthWithoutAlloc := 2 } by
      decide) rfl rfl rfl rfl rfl rfl hfits hencode (by decide) (by decide) (by decide) halloc
      hsteady rfl
  exact ⟨hwriter.mpr (by decide), hreader (fun hversion => by cases hversion) (by decide),
    fun hdeep => absurd (htree.mp hdeep).2 (by decide)⟩

/-- A bin in an array, with room for one level, is refused by writers and readers and not by trees.
A bin of the legacy format that is no text, and behind it two arrays with room for one, are refused
by trees for the arrays and by readers for the text. -/
theorem ceiling_differs :
    (Config.Valid { dynamicAlloc := false, maxDepthWithoutAlloc := 1 } ∧
      (Value.array [.bin [9]]).encode { maxDepthWithoutAlloc := 1 } .counted =
        .ok [0x91, 0xc4, 0x01, 0x09] ∧
      TooDeep ((Value.array [.bin [9]]).encode
        { dynamicAlloc := false, maxDepthWithoutAlloc := 1 } .counted) ∧
      TooDeep (Reader.create { dynamicAlloc := false, maxDepthWithoutAlloc := 1 }
        { deliveries := [.chunk [0x91, 0xc4, 0x01, 0x09]] } >>= readWhole) ∧
      ¬TooDeep (Tree.parse { dynamicAlloc := false, maxDepthWithoutAlloc := 1 }
        [0x91, 0xc4, 0x01, 0x09])) ∧
    ∃ legacy : Config,
      legacy = {
        compatibility := true
        version := .v4
        dynamicAlloc := false
        maxDepthWithoutAlloc := 2 } ∧
      legacy.Valid ∧
      (Value.array [.bin [0xff], .array [.array []]]).encode
        { legacy with dynamicAlloc := true } .counted = .ok [0x92, 0xa1, 0xff, 0x91, 0x90] ∧
      (Reader.create legacy { deliveries := [.chunk [0x92, 0xa1, 0xff, 0x91, 0x90]] } >>=
        readWhole) = .error (.invalid .invalidUtf8) ∧
      TooDeep (Tree.parse legacy [0x92, 0xa1, 0xff, 0x91, 0x90]) := by
  have hsteady : ∀ bytes : Bytes, Source.Steady { deliveries := [.chunk bytes] } := by
    refine fun bytes => ⟨fun delivery hmember => ?_, fun hnone => by cases hnone⟩
    rw [List.mem_singleton.mp hmember]
    trivial
  refine ⟨?_, ?_⟩
  · have hfits : (Value.array [.bin [9]]).Fits := by
      simp [Fits, FitsItems, UInt32.size]
    have hencode : (Value.array [.bin [9]]).encode { maxDepthWithoutAlloc := 1 } .counted =
        .ok [0x91, 0xc4, 0x01, 0x09] := by
      rw [encode_counted _ hfits]
      rfl
    have hvalid : Config.Valid { dynamicAlloc := false, maxDepthWithoutAlloc := 1 } := by decide
    have hcomplete : (Message.node [0x91] (.array 1) []
        [.node [0xc4, 0x01] (.bin 1) [9] []]).Complete
          (Config.tagOptions { dynamicAlloc := false, maxDepthWithoutAlloc := 1 }) := by
      refine .node rfl rfl rfl fun child hchild => ?_
      rw [List.mem_singleton.mp hchild]
      exact .node rfl rfl rfl fun _ hnone => by cases hnone
    have hread : (Reader.create { dynamicAlloc := false, maxDepthWithoutAlloc := 1 }
        { deliveries := [.chunk [0x91, 0xc4, 0x01, 0x09]] } >>= readWhole) = _ :=
      readWhole_result hvalid rfl (hsteady _) hcomplete (hcomplete.small (by decide)) rfl
    have htree : TooDeep (Tree.parse { dynamicAlloc := false, maxDepthWithoutAlloc := 1 }
        [0x91, 0xc4, 0x01, 0x09]) ↔ 1 < 1 :=
      Tree.tooDeep_parseWithin_reserved hvalid rfl (by decide) hcomplete (by decide) (by decide)
    refine ⟨hvalid, hencode, ⟨2, 1, ?_⟩, ⟨2, 1, hread.trans rfl⟩, fun hdeep => ?_⟩
    · rw [encode_counted _ hfits]
      rfl
    · exact absurd (htree.mp hdeep) (by decide)
  · have hfits : (Value.array [.bin [0xff], .array [.array []]]).Fits := by
      simp [Fits, FitsItems, UInt32.size]
    obtain ⟨legacy, hlegacy⟩ : ∃ legacy : Config, legacy = {
        compatibility := true
        version := .v4
        dynamicAlloc := false
        maxDepthWithoutAlloc := 2 } := ⟨_, rfl⟩
    have hvalid : legacy.Valid := by
      rw [hlegacy]
      decide
    have hcomplete : (Message.node [0x92] (.array 2) [] [.node [0xa1] (.str 1) [0xff] [],
        .node [0x91] (.array 1) [] [.node [0x90] (.array 0) [] []]]).Complete
          legacy.tagOptions := by
      rw [hlegacy]
      refine .node rfl rfl rfl fun child hchild => ?_
      simp only [List.mem_cons, List.not_mem_nil, or_false] at hchild
      rcases hchild with rfl | rfl
      · exact .node rfl rfl rfl fun _ hnone => by cases hnone
      · refine .node rfl rfl rfl fun child hchild => ?_
        rw [List.mem_singleton.mp hchild]
        exact .node rfl rfl rfl fun _ hnone => by cases hnone
    have hread : (Reader.create legacy {
        deliveries := [.chunk [0x92, 0xa1, 0xff, 0x91, 0x90]] } >>= readWhole) = _ :=
      readWhole_result hvalid (by rw [hlegacy]) (hsteady _) hcomplete
        (hcomplete.small (by rw [hlegacy]; decide)) rfl
    have htree : TooDeep (Tree.parse legacy [0x92, 0xa1, 0xff, 0x91, 0x90]) ↔ _ :=
      Tree.tooDeep_parseWithin_iff hvalid (by rw [hlegacy]) hcomplete (by rw [hlegacy]; decide)
        (by rw [hlegacy]; decide)
    refine ⟨legacy, hlegacy, hvalid, ?_, hread.trans ?_, htree.mpr ?_⟩
    · rw [encode_counted _ hfits, hlegacy]
      rfl
    · rw [hlegacy]
      rfl
    · rw [hlegacy]
      decide

end Value
end MessagePack
