import MessagePack.Proofs.Elements
import MessagePack.Proofs.Narrow
import MessagePack.Proofs.RoundTrip

/-!
Canonical documents. What is read is written again in no more bytes, and of all the values that
are read alike, each is written as the same bytes.
-/

namespace MessagePack

theorem utf8_of_ofUtf8 {payload : Bytes} {text : String} (htext : ofUtf8? payload = some text) :
    utf8 text = payload := by
  unfold ofUtf8? String.fromUTF8? at htext
  split at htext
  · cases htext
    have hlist : ∀ bytes : ByteArray, bytes.toList = bytes.data.toList :=
      fun bytes => toList_loop bytes 0 []
    rw [utf8, hlist]
    exact List.toList_data_toByteArray
  · cases htext

namespace Value

variable {options : TagOptions} {room : Room} {size : Nat}

/-! What is read can be written. -/

/-- The value can be written, in no more bytes than that. -/
structure Writes (options : TagOptions) (size : Nat) (value : Value) : Prop where
  fits : value.Fits
  ext : value.HoldsExt → options.extensions = true
  narrow : ∃ bytes, value.encoding options none = .ok bytes ∧ bytes.length ≤ size

/-- The same of the elements of an array or a map. -/
structure WritesItems (options : TagOptions) (size : Nat) (items : List Value) : Prop where
  fits : FitsItems items
  ext : HoldsExtItems items → options.extensions = true
  narrow : ∃ bytes, itemsEncoding options none items = .ok bytes ∧ bytes.length ≤ size

theorem writesItems {messages : List Message} {found : List Value}
    (hwrites : ∀ message ∈ messages, ∀ value, message.value = .ok value →
      value.Writes options message.bytes.length)
    (hvalues : Message.values messages = .ok found) :
    found.length = messages.length ∧ WritesItems options (Message.text messages).length found := by
  induction messages generalizing found with
  | nil =>
      cases hvalues
      exact ⟨rfl, True.intro, False.elim, [], rfl, Nat.le_refl 0⟩
  | cons message messages ih =>
      obtain ⟨first, rest, hfirst, hrest, rfl⟩ := Message.values_cons_eq_ok.mp hvalues
      obtain ⟨hfits, hext, head, hhead, hshort⟩ := hwrites message (.head _) first hfirst
      obtain ⟨hlength, hothers⟩ := ih (fun other hother => hwrites other (.tail _ hother)) hrest
      obtain ⟨tail, htail, hless⟩ := hothers.narrow
      refine ⟨by rw [List.length_cons, List.length_cons, hlength], ⟨hfits, hothers.fits⟩,
        fun hholds => hholds.elim hext hothers.ext, head ++ tail, ?_, ?_⟩
      · rw [itemsEncoding, hhead, htail]
        rfl
      · rw [Message.text, List.length_append, List.length_append]
        omega

/-- Only an accepted header announces an ext. -/
theorem extensions_of_decode {header : Bytes} {type : Int8} {length : UInt32} {n : Nat}
    (hheader : Header.decode options header = .ok (.ext type length, n)) :
    options.extensions = true := by
  obtain ⟨narrow, hencode, -⟩ := Header.encode_decode_length_le hheader
  cases hextensions : options.extensions with
  | true => rfl
  | false => simp [Header.encode, hextensions] at hencode

section Node

variable {header payload : Bytes} {tag : Tag} {children : List Message} {value : Value}

theorem Writes.scalar (hheader : Header.decode options header = .ok (tag, header.length))
    (hfits : value.Fits) (hext : ¬value.HoldsExt)
    (hencoding : value.encoding options none = Header.encode options tag) :
    value.Writes options (Message.node header tag payload children).bytes.length := by
  obtain ⟨narrow, hencode, hshort⟩ := Header.encode_decode_length_le hheader
  refine ⟨hfits, fun hholds => absurd hholds hext, narrow, hencoding.trans hencode, ?_⟩
  rw [Message.bytes, List.length_append, List.length_append]
  omega

theorem Writes.enclosed {content : Room → Except Error Bytes}
    (hheader : Header.decode options header = .ok (tag, header.length)) (hfits : value.Fits)
    (hext : value.HoldsExt → options.extensions = true)
    (hencoding : value.encoding options none = Value.enclosed options none tag content)
    (hcontent : ∃ text, content none = .ok text ∧
      text.length ≤ payload.length + (Message.text children).length) :
    value.Writes options (Message.node header tag payload children).bytes.length := by
  obtain ⟨narrow, hencode, hshort⟩ := Header.encode_decode_length_le hheader
  obtain ⟨text, htext, hless⟩ := hcontent
  refine ⟨hfits, hext, narrow ++ text, ?_, ?_⟩
  · rw [hencoding, Value.enclosed, hencode]
    simp only [bind, Except.bind, Room.deeper, htext]
    rfl
  · rw [Message.bytes, List.length_append, List.length_append, List.length_append]
    omega

end Node

theorem writes_of_complete {message : Message} {value : Value} (hplain : Plain options)
    (hcomplete : message.Complete options) (hvalue : message.value = .ok value) :
    value.Writes options message.bytes.length := by
  induction hcomplete generalizing value with
  | @node header tag payload children hheader hpayload hcount _ ih =>
      have hnative := Header.requireNativeFloats_of_native hplain.float
      have hlength : ∀ length : UInt32, tag.payloadLength? = some length.toNat →
          payload.length < UInt32.size ∧ UInt32.ofNat payload.length = length := by
        intro length hsome
        rw [hsome, Option.getD_some] at hpayload
        rw [hpayload]
        exact ⟨length.toNat_lt, UInt32.ofNat_toNat⟩
      have hwhole : payload.length ≤ payload.length + (Message.text children).length :=
        Nat.le_add_right _ _
      cases tag with
      | nil | bool _ | int _ | uint _ | float _ | double _ =>
          cases hvalue
          exact .scalar hheader True.intro id rfl
      | rawFloat bits | rawDouble bits =>
          cases hvalue
          refine .scalar hheader True.intro id ?_
          simp only [encoding, Header.encode, hnative]
          rfl
      | str length =>
          obtain ⟨hfits, hsame⟩ := hlength length rfl
          simp only [Message.value, ofText] at hvalue
          split at hvalue
          · next text htext =>
            cases hvalue
            have hutf8 : utf8 text = payload := utf8_of_ofUtf8 htext
            have hencoding : (Value.str text).encoding options none =
                Value.enclosed options none (.str length) fun _ => .ok payload := by
              rw [encoding, hutf8, hsame]
            refine .enclosed hheader ?_ False.elim hencoding ⟨payload, rfl, hwhole⟩
            rw [Fits, hutf8]
            exact hfits
          · cases hvalue
      | bin length =>
          obtain ⟨hfits, hsame⟩ := hlength length rfl
          cases hvalue
          have hencoding : (Value.bin payload).encoding options none =
              Value.enclosed options none (.bin length) fun _ => .ok payload := by
            rw [encoding, hsame]
          exact .enclosed hheader hfits False.elim hencoding ⟨payload, rfl, hwhole⟩
      | ext type length =>
          obtain ⟨hfits, hsame⟩ := hlength length rfl
          cases hvalue
          have hencoding : (Value.ext type payload).encoding options none =
              Value.enclosed options none (.ext type length) fun _ => .ok payload := by
            rw [encoding, hsame]
          exact .enclosed hheader hfits (fun _ => extensions_of_decode hheader)
            hencoding ⟨payload, rfl, hwhole⟩
      | array count =>
          have hcount : children.length = count.toNat := hcount
          obtain ⟨found, hfound, rfl⟩ := map_eq_ok hvalue
          obtain ⟨hsame, hitems⟩ :=
            writesItems (fun child hchild value => ih child hchild) hfound
          obtain ⟨text, htext, hshort⟩ := hitems.narrow
          have hencoding : (Value.array found).encoding options none =
              Value.enclosed options none (.array count) fun inner =>
                itemsEncoding options inner found := by
            rw [encoding, hsame, hcount, UInt32.ofNat_toNat]
          refine .enclosed hheader ⟨?_, hitems.fits⟩ hitems.ext hencoding
            ⟨text, htext, by omega⟩
          rw [hsame, hcount]
          exact count.toNat_lt
      | map pairs =>
          have hcount : children.length = 2 * pairs.toNat := hcount
          obtain ⟨found, hfound, rfl⟩ := map_eq_ok hvalue
          obtain ⟨hsame, hitems⟩ :=
            writesItems (fun child hchild value => ih child hchild) hfound
          obtain ⟨hunpaired, hpairs⟩ := unpaired_paired (hsame.trans hcount)
          obtain ⟨text, htext, hshort⟩ := hitems.narrow
          have hencoding : (Value.map (paired found)).encoding options none =
              Value.enclosed options none (.map pairs) fun inner =>
                itemsEncoding options inner found := by
            simp only [encoding, entriesEncoding_eq, hunpaired, hpairs, UInt32.ofNat_toNat]
          refine .enclosed hheader ⟨?_, ?_⟩ ?_ hencoding ⟨text, htext, by omega⟩
          · rw [hpairs]
            exact pairs.toNat_lt
          · rw [fitsEntries_iff, hunpaired]
            exact hitems.fits
          · intro hholds
            rw [HoldsExt, holdsExtEntries_iff, hunpaired] at hholds
            exact hitems.ext hholds

/-! The sign of an integer is not written. -/

theorem length_normItems (items : List Value) : (normItems items).length = items.length := by
  induction items with
  | nil => rfl
  | cons item items ih => rw [normItems, List.length_cons, List.length_cons, ih]

theorem length_normEntries (entries : List (Value × Value)) :
    (normEntries entries).length = entries.length := by
  induction entries with
  | nil => rfl
  | cons entry entries ih => rw [normEntries, List.length_cons, List.length_cons, ih]

mutual

theorem encoding_norm (options : TagOptions) (room : Room) :
    (value : Value) → value.norm.encoding options room = value.encoding options room
  | .int value => by
      rw [norm]
      split
      · next hsign =>
        have hnumber : (value.toUInt64.toNat : Int) = value.toInt := by
          rw [Int64.toNat_toUInt64_of_le hsign]
          rw [Int64.le_iff_toInt_le, Int64.toInt_zero] at hsign
          exact Int.toNat_of_nonneg hsign
        simp only [encoding, Header.encode, hnumber]
      · rfl
  | .array items => by
      have hitems : (fun inner => itemsEncoding options inner (normItems items)) =
          fun inner => itemsEncoding options inner items :=
        funext fun inner => itemsEncoding_norm options inner items
      rw [norm, encoding, encoding, length_normItems, hitems]
  | .map entries => by
      have hentries : (fun inner => entriesEncoding options inner (normEntries entries)) =
          fun inner => entriesEncoding options inner entries :=
        funext fun inner => entriesEncoding_norm options inner entries
      rw [norm, encoding, encoding, length_normEntries, hentries]
  | .nil | .bool _ | .uint _ | .float _ | .double _ | .str _ | .bin _ | .ext _ _ => rfl

theorem itemsEncoding_norm (options : TagOptions) (room : Room) : (items : List Value) →
    itemsEncoding options room (normItems items) = itemsEncoding options room items
  | [] => rfl
  | item :: items => by
      rw [normItems, itemsEncoding, itemsEncoding, encoding_norm options room item,
        itemsEncoding_norm options room items]

theorem entriesEncoding_norm (options : TagOptions) (room : Room) :
    (entries : List (Value × Value)) →
      entriesEncoding options room (normEntries entries) = entriesEncoding options room entries
  | [] => rfl
  | (key, value) :: entries => by
      rw [normEntries, entriesEncoding, entriesEncoding, encoding_norm options room key,
        encoding_norm options room value, entriesEncoding_norm options room entries]

end

/-! Documents written again. -/

/-- The bytes are read as the value, as a tree or with a reader. -/
def Decodes (config : Config) (bytes : Bytes) (value : Value) : Prop :=
  (Tree.parse config bytes >>= ofTree) = .ok value ∨
    ∃ source : Source, source.Steady ∧ source.content = bytes ∧
      (Reader.create config source >>= readWhole) = .ok (value, true)

variable {config : Config} {bytes : Bytes} {value : Value}

theorem Decodes.complete (hvalid : config.Valid) (hreader : config.reader = true)
    (hdynamic : config.dynamicAlloc = true) (halloc : bytes.length ≤ config.maxAlloc)
    (hdecodes : Decodes config bytes value) :
    ∃ message : Message, message.Complete config.tagOptions ∧ message.bytes = bytes ∧
      message.value = .ok value := by
  rcases hdecodes with htree | ⟨source, hsteady, rfl, hwhole⟩
  · obtain ⟨tree, hparse, hvalue⟩ := bind_eq_ok htree
    obtain ⟨message, hcomplete, hbytes, -, hsame⟩ := Tree.parseWithin_eq_ok hparse
    exact ⟨message, hcomplete, hbytes, hsame.symm.trans hvalue⟩
  · exact (readWhole_iff hvalid hreader hdynamic hsteady halloc).mp hwhole

/-- The room that one tree of a configuration took is there for the next. -/
theorem reserves_of_ofTree (hdocument : (Tree.parse config bytes >>= ofTree) = .ok value) :
    config.Reserves := by
  obtain ⟨tree, hparse, -⟩ := bind_eq_ok hdocument
  exact Tree.reserves_of_parseWithin hparse

theorem encode_stands (hvalid : config.Valid) (hwriter : config.writer = true)
    (hdynamic : config.dynamicAlloc = true) (hplain : Plain config.tagOptions)
    (hfits : value.Fits) (hext : value.HoldsExt → config.extensions = true) :
    ∃ message, value.encode config .counted = .ok message.bytes ∧
      Stands config.tagOptions value message := by
  obtain ⟨message, hencoding, hstands⟩ := stands hplain value hfits hext
  exact ⟨message, (encode_eq_encoding hvalid hwriter hdynamic hfits).trans hencoding, hstands⟩

/-- A document that is read is written again in no more bytes. These are what is written for all
documents that are read alike, and for no others. A tree of them wants the room that a tree of the
first bytes has had. -/
theorem encode_canonical (hvalid : config.Valid) (hversion : config.version = .v5)
    (hreader : config.reader = true) (hwriter : config.writer = true)
    (hnode : config.node = true) (hfloat : config.float = .native)
    (hdynamic : config.dynamicAlloc = true) :
    (∀ (bytes : Bytes) (value : Value), bytes.length ≤ config.maxAlloc →
      bytes.length ≤ config.maxSize → value.depth ≤ config.maxDepth →
      value.nodes ≤ config.maxNodes → Decodes config bytes value →
      ∃ encoded, value.encode config .counted = .ok encoded ∧ encoded.length ≤ bytes.length ∧
        (∀ source : Source, source.Steady → source.content = encoded →
          (Reader.create config source >>= readWhole) = .ok (value.norm, true)) ∧
        ((Tree.parse config bytes >>= ofTree) = .ok value ∨ config.Reserves →
          (Tree.parse config encoded >>= ofTree) = .ok value.norm) ∧
        value.norm.encode config .counted = .ok encoded) ∧
    ∀ first second : Value, first.Fits → (first.HoldsExt → config.extensions = true) →
      second.Fits → (second.HoldsExt → config.extensions = true) →
      ∃ left right, first.encode config .counted = .ok left ∧
        second.encode config .counted = .ok right ∧ (left = right ↔ first.norm = second.norm) := by
  have hplain : Plain config.tagOptions := by
    refine ⟨?_, hfloat⟩
    simp [Config.tagOptions, Config.effectiveVersion, hversion]
  refine ⟨fun bytes value halloc hsize hdepth hnodes hdecodes => ?_,
    fun first second hfirst hfirstExt hsecond hsecondExt => ?_⟩
  · obtain ⟨message, hcomplete, rfl, hvalue⟩ :=
      hdecodes.complete hvalid hreader hdynamic halloc
    have hwrites := writes_of_complete hplain hcomplete hvalue
    obtain ⟨again, hencode, hstands⟩ :=
      encode_stands hvalid hwriter hdynamic hplain hwrites.fits hwrites.ext
    have hshort : again.bytes.length ≤ message.bytes.length := by
      obtain ⟨narrow, hnarrow, hless⟩ := hwrites.narrow
      rw [encode_eq_encoding hvalid hwriter hdynamic hwrites.fits, hnarrow] at hencode
      cases hencode
      exact hless
    have hnested : again.depth ≤ config.nodeDepthLimit config.maxDepth := by
      rw [hstands.depth, Config.nodeDepthLimit_of_dynamic hdynamic]
      exact hdepth
    refine ⟨again.bytes, hencode, hshort, fun source hsteady hcontent => ?_, fun hroom => ?_, ?_⟩
    · exact (readWhole_iff hvalid hreader hdynamic hsteady (by rw [hcontent]; omega)).mpr
        ⟨again, hstands.complete, hcontent.symm, hstands.decoded⟩
    · have hreserves : config.Reserves := hroom.elim reserves_of_ofTree id
      obtain ⟨tree, hparse, hsame⟩ : ∃ tree,
          Tree.parseWithin config config.maxDepth again.bytes = .ok tree ∧
            ofTree tree = again.value :=
        Tree.parseWithin_ok hvalid hnode hreserves hstands.complete hnested (by omega)
          (by rw [hstands.nodes]; exact hnodes)
      rw [Tree.parse, hparse]
      exact hsame.trans hstands.decoded
    · have hnorm := writes_of_complete hplain hstands.complete hstands.decoded
      rw [encode_eq_encoding hvalid hwriter hdynamic hnorm.fits, encoding_norm,
        ← encode_eq_encoding hvalid hwriter hdynamic hwrites.fits]
      exact hencode
  · obtain ⟨left, hleft, hfirstStands⟩ :=
      encode_stands hvalid hwriter hdynamic hplain hfirst hfirstExt
    obtain ⟨right, hright, hsecondStands⟩ :=
      encode_stands hvalid hwriter hdynamic hplain hsecond hsecondExt
    refine ⟨left.bytes, right.bytes, hleft, hright, fun hsame => ?_, fun hsame => ?_⟩
    · obtain ⟨rfl, -⟩ := hfirstStands.complete.unique hsecondStands.complete
        (congrArg (· ++ []) hsame)
      exact Except.ok.inj (hfirstStands.decoded.symm.trans hsecondStands.decoded)
    · rw [encode_eq_encoding hvalid hwriter hdynamic hfirst, ← encoding_norm, hsame,
        encoding_norm, ← encode_eq_encoding hvalid hwriter hdynamic hsecond, hright] at hleft
      exact (Except.ok.inj hleft).symm

/-- An array of a signed number and of bytes, both with wide headers; and a number written with
and without its sign. -/
theorem encode_canonical_wide :
    ((Value.array [.int 5, .bin [9]]).encode {} .counted = .ok [0x92, 0x05, 0xc4, 0x01, 0x09] ∧
      (Tree.parse {} [0x92, 0x05, 0xc4, 0x01, 0x09] >>= ofTree) =
        .ok (.array [.uint 5, .bin [9]])) ∧
    ∃ left right, (Value.int 5).encode {} .counted = .ok left ∧
      (Value.uint 5).encode {} .counted = .ok right ∧ left = right := by
  have hitems : ∀ child ∈ [Message.node [0xd1, 0x00, 0x05] (.int 5) [] [],
      .node [0xc6, 0x00, 0x00, 0x00, 0x01] (.bin 1) [9] []], child.Complete {} := by
    intro child hchild
    simp only [List.mem_cons, List.not_mem_nil, or_false] at hchild
    rcases hchild with rfl | rfl <;> exact .node rfl rfl rfl fun _ hnone => by cases hnone
  have hcomplete : (Message.node [0x92] (.array 2) [] _).Complete {} :=
    .node rfl rfl rfl hitems
  have hdecodes : Decodes {}
      [0x92, 0xd1, 0x00, 0x05, 0xc6, 0x00, 0x00, 0x00, 0x01, 0x09]
      (.array [.int 5, .bin [9]]) :=
    .inl ((ofTree_iff (by decide) rfl rfl (by decide) (by decide) (by decide)).mpr
      ⟨by decide, _, hcomplete, rfl, rfl⟩)
  have hfits : (Value.array [.int 5, .bin [9]]).Fits := by
    simp [Fits, FitsItems, UInt32.size]
  have hencode : (Value.array [.int 5, .bin [9]]).encode {} .counted =
      .ok [0x92, 0x05, 0xc4, 0x01, 0x09] := by
    rw [encode_counted _ hfits]
    rfl
  obtain ⟨hread, hsame⟩ :=
    encode_canonical (show Config.Valid {} by decide) rfl rfl rfl rfl rfl rfl
  obtain ⟨encoded, hencoded, -, -, htree, -⟩ :=
    hread _ _ (by decide) (by decide) (by decide) (by decide) hdecodes
  rw [hencode] at hencoded
  cases hencoded
  obtain ⟨left, right, hleft, hright, hiff⟩ :=
    hsame (.int 5) (.uint 5) True.intro False.elim True.intro False.elim
  exact ⟨⟨hencode, htree (.inr (by decide))⟩, left, right, hleft, hright, hiff.mpr rfl⟩

end Value
end MessagePack
