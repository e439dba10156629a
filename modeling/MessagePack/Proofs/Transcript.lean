import MessagePack.Proofs.Document
import MessagePack.Proofs.Encoding

/-!
What is written is there to be read. The encoding of a value is a complete message, as deep and
as large as the value is, and stands for the value up to the sign of its integers.
-/

namespace MessagePack

theorem toList_loop (bytes : ByteArray) (i : Nat) (before : List UInt8) :
    ByteArray.toList.loop bytes i before = before.reverse ++ bytes.data.toList.drop i := by
  fun_induction ByteArray.toList.loop bytes i before with
  | case1 i before hlt ih =>
      have hindex : i < bytes.data.toList.length := hlt
      have hget : bytes.get! i = bytes.data.toList[i] := by
        rw [Array.getElem_toList]
        exact getElem!_pos bytes.data i hlt
      rw [ih, List.drop_eq_getElem_cons hindex, List.reverse_cons, hget, List.append_assoc]
      rfl
  | case2 i before hend =>
      have hdone : bytes.data.toList.length ≤ i := Nat.le_of_not_lt hend
      rw [List.drop_eq_nil_of_le hdone, List.append_nil]

theorem ofUtf8_utf8 (text : String) : ofUtf8? (utf8 text) = some text := by
  have hbytes : (utf8 text).toByteArray = text.toByteArray := by
    have hlist : text.toUTF8.toList = text.toByteArray.data.toList := toList_loop text.toUTF8 0 []
    rw [utf8, hlist]
    exact ByteArray.ext (Array.ext' List.toList_data_toByteArray)
  rw [ofUtf8?, hbytes, String.fromUTF8?, dif_pos text.isValidUTF8]
  rfl

namespace Value

mutual

def depth : Value → Nat
  | .array items => depthItems items + 1
  | .map entries => depthEntries entries + 1
  | _ => 0

def depthItems : List Value → Nat
  | [] => 0
  | item :: items => max (depth item) (depthItems items)

def depthEntries : List (Value × Value) → Nat
  | [] => 0
  | (key, value) :: entries => max (depth key) (max (depth value) (depthEntries entries))

end

mutual

def nodes : Value → Nat
  | .array items => nodesItems items + 1
  | .map entries => nodesEntries entries + 1
  | _ => 1

def nodesItems : List Value → Nat
  | [] => 0
  | item :: items => nodes item + nodesItems items

def nodesEntries : List (Value × Value) → Nat
  | [] => 0
  | (key, value) :: entries => nodes key + (nodes value + nodesEntries entries)

end

mutual

def HoldsExt : Value → Prop
  | .ext _ _ => True
  | .array items => HoldsExtItems items
  | .map entries => HoldsExtEntries entries
  | _ => False

def HoldsExtItems : List Value → Prop
  | [] => False
  | item :: items => HoldsExt item ∨ HoldsExtItems items

def HoldsExtEntries : List (Value × Value) → Prop
  | [] => False
  | (key, value) :: entries => HoldsExt key ∨ HoldsExt value ∨ HoldsExtEntries entries

end

def unpaired : List (Value × Value) → List Value
  | [] => []
  | (key, value) :: entries => key :: value :: unpaired entries

theorem paired_unpaired (entries : List (Value × Value)) : paired (unpaired entries) = entries := by
  induction entries with
  | nil => rfl
  | cons entry entries ih => rw [unpaired, paired, ih]

/-- The message is what there is to read of the value. -/
structure Stands (options : TagOptions) (value : Value) (message : Message) : Prop where
  complete : message.Complete options
  decoded : message.value = .ok value.norm
  depth : message.depth = value.depth
  nodes : message.nodes = value.nodes

/-- The same of the messages in an array or a map. -/
structure Held (options : TagOptions) (count depth nodes : Nat) (found : List Value)
    (messages : List Message) : Prop where
  length : messages.length = count
  complete : ∀ message ∈ messages, message.Complete options
  values : Message.values messages = .ok found
  depth : Message.depths messages = depth
  nodes : Message.nodesOf messages = nodes

variable {options : TagOptions}

theorem Held.nil : Held options 0 0 0 [] [] :=
  ⟨rfl, fun _ hmember => absurd hmember List.not_mem_nil, rfl, rfl, rfl⟩

theorem Held.cons {count depth nodes : Nat} {found : List Value} {messages : List Message}
    {value : Value} {message : Message} (hstands : Stands options value message)
    (hheld : Held options count depth nodes found messages) :
    Held options (count + 1) (max value.depth depth) (value.nodes + nodes) (value.norm :: found)
      (message :: messages) := by
  refine ⟨by rw [List.length_cons, hheld.length], ?_, ?_, ?_, ?_⟩
  · intro other hother
    rcases List.mem_cons.mp hother with rfl | hother
    · exact hstands.complete
    · exact hheld.complete other hother
  · rw [Message.values, hstands.decoded, hheld.values]
    rfl
  · rw [Message.depths, hstands.depth, hheld.depth]
  · rw [Message.nodesOf, hstands.nodes, hheld.nodes]

/-- What tells apart nothing but the sign of integers. -/
structure Plain (options : TagOptions) : Prop where
  version : options.version = .v5
  float : options.float = .native

mutual

/-- The options have a header of its own for everything in the value. The legacy format has none
for bytes that are no text. -/
def Expressible (options : TagOptions) : Value → Prop
  | .float _ | .double _ => options.float = .native
  | .bin _ => options.version = .v5
  | .ext _ _ => options.version = .v5 ∧ options.extensions = true
  | .array items => ExpressibleItems options items
  | .map entries => ExpressibleEntries options entries
  | _ => True

def ExpressibleItems (options : TagOptions) : List Value → Prop
  | [] => True
  | item :: items => Expressible options item ∧ ExpressibleItems options items

def ExpressibleEntries (options : TagOptions) : List (Value × Value) → Prop
  | [] => True
  | (key, value) :: entries =>
      Expressible options key ∧ Expressible options value ∧ ExpressibleEntries options entries

end

theorem encode_native {tag : Tag} {header : Bytes} (hfloat : options.float = .native)
    (hencode : Header.encode options tag = do
      Header.requireNativeFloats options
      return header) :
    Header.encode options tag = .ok header := by
  rw [hencode, Header.requireNativeFloats_of_native hfloat]
  rfl

theorem Stands.node {value : Value} {tag : Tag} {header payload : Bytes}
    {children : List Message} {depth nodes : Nat} {found : List Value}
    (hencode : Header.encode options tag = .ok header)
    (hpayload : payload.length = tag.payloadLength?.getD 0)
    (hheld : Held options (tag.childCount?.getD 0) depth nodes found children)
    (hdecoded : (Message.node header (tag.asRead options) payload children).value =
      .ok value.norm)
    (hdepth : (if tag.childCount? = none then 0 else depth + 1) = value.depth)
    (hnodes : nodes + 1 = value.nodes) :
    Stands options value (.node header (tag.asRead options) payload children) := by
  have hheader := Header.decode_encoded hencode
  refine ⟨.node hheader ?_ ?_ hheld.complete, hdecoded, ?_, ?_⟩
  · rw [Tag.payloadLength_asRead, hpayload]
  · rw [Tag.childCount_asRead, hheld.length]
  · rw [Message.depth, Tag.childCount_asRead, hheld.depth, ← hdepth]
    cases tag.childCount? <;> rfl
  · rw [Message.nodes, hheld.nodes, hnodes]

theorem Stands.scalar {value : Value} (tag : Tag) {header : Bytes}
    (hencode : Header.encode options tag = .ok header) (hopens : tag.opens? = none)
    (hencoding : value.encoding options none = Header.encode options tag)
    (hdecoded : ∀ header, (Message.node header (tag.asRead options) [] []).value = .ok value.norm)
    (hdepth : value.depth = 0) (hnodes : value.nodes = 1) :
    ∃ message, value.encoding options none = .ok message.bytes ∧ Stands options value message := by
  have hheld : Held options (tag.childCount?.getD 0) 0 0 [] [] := by
    rw [Tag.childCount_of_scalar hopens]
    exact .nil
  refine ⟨_, ?_, .node hencode ?_ hheld (hdecoded header) ?_ hnodes.symm⟩
  · rw [hencoding, hencode]
    simp [Message.bytes, Message.text]
  · rw [Tag.payloadLength_of_scalar hopens]
    rfl
  · rw [Tag.childCount_of_scalar hopens, hdepth]
    rfl

theorem Stands.payload {value : Value} (tag : Tag) {header payload : Bytes}
    (hencode : Header.encode options tag = .ok header)
    (hencoding : value.encoding options none =
      Value.enclosed options none tag fun _ => .ok payload)
    (hlength : tag.payloadLength? = some payload.length)
    (hdecoded : ∀ header, (Message.node header (tag.asRead options) payload []).value =
      .ok value.norm)
    (hdepth : value.depth = 0) (hnodes : value.nodes = 1) :
    ∃ message, value.encoding options none = .ok message.bytes ∧ Stands options value message := by
  have hcount := Tag.childCount_of_payload hlength
  have hheld : Held options (tag.childCount?.getD 0) 0 0 [] [] := by
    rw [hcount]
    exact .nil
  refine ⟨_, ?_, .node hencode ?_ hheld (hdecoded header) ?_ hnodes.symm⟩
  · rw [hencoding, Value.enclosed, hencode]
    simp [bind, Except.bind, Room.deeper, Message.bytes, Message.text, pure, Except.pure]
  · rw [hlength]
    rfl
  · rw [hcount, hdepth]
    rfl

theorem Stands.elements {value : Value} (tag : Tag) {content : Room → Except Error Bytes}
    {header : Bytes} {children : List Message} {count depth nodes : Nat} {found : List Value}
    (hencode : Header.encode options tag = .ok header)
    (hencoding : value.encoding options none = Value.enclosed options none tag content)
    (hcontent : content none = .ok (Message.text children))
    (hscalar : tag.payloadLength? = none) (hcount : tag.childCount? = some count)
    (hheld : Held options count depth nodes found children)
    (hdecoded : ∀ header, (Message.node header (tag.asRead options) [] children).value =
      .ok value.norm)
    (hdepth : depth + 1 = value.depth) (hnodes : nodes + 1 = value.nodes) :
    ∃ message, value.encoding options none = .ok message.bytes ∧ Stands options value message := by
  have hinside : Held options (tag.childCount?.getD 0) depth nodes found children := by
    rw [hcount]
    exact hheld
  refine ⟨_, ?_, .node hencode ?_ hinside (hdecoded header) ?_ hnodes⟩
  · rw [hencoding, Value.enclosed, hencode]
    simp [bind, Except.bind, Room.deeper, hcontent, Message.bytes, pure, Except.pure]
  · rw [hscalar]
    rfl
  · rw [hcount, ← hdepth]
    rfl

mutual

theorem stands_of_expressible : (value : Value) → value.Fits → value.Expressible options →
    ∃ message, value.encoding options none = .ok message.bytes ∧ Stands options value message
  | .nil, _, _ => Stands.scalar .nil rfl rfl rfl (fun _ => rfl) rfl rfl
  | .bool value, _, _ => Stands.scalar (.bool value) rfl rfl rfl (fun _ => rfl) rfl rfl
  | .int value, _, _ => by
      refine Stands.scalar (.int value) rfl rfl rfl (fun header => ?_) rfl rfl
      rw [Tag.asRead, norm]
      split <;> rfl
  | .uint value, _, _ => Stands.scalar (.uint value) rfl rfl rfl (fun _ => rfl) rfl rfl
  | .float bits, _, hfloat =>
      Stands.scalar (.float bits) (encode_native hfloat rfl) rfl rfl (fun _ => rfl) rfl rfl
  | .double bits, _, hfloat =>
      Stands.scalar (.double bits) (encode_native hfloat rfl) rfl rfl (fun _ => rfl) rfl rfl
  | .str text, hfits, _ => by
      have hlength : (UInt32.ofNat (utf8 text).length).toNat = (utf8 text).length :=
        UInt32.toNat_ofNat_of_lt' hfits
      refine Stands.payload (.str (UInt32.ofNat (utf8 text).length)) rfl rfl
        (congrArg some hlength) (fun header => ?_) rfl rfl
      simp only [Tag.asRead, Message.value, ofText, ofUtf8_utf8, norm]
  | .bin content, hfits, hversion => by
      have hlength : (UInt32.ofNat content.length).toNat = content.length :=
        UInt32.toNat_ofNat_of_lt' hfits
      refine Stands.payload (.bin (UInt32.ofNat content.length)) rfl rfl
        (congrArg some hlength) (fun header => ?_) rfl rfl
      have hversion : options.version = .v5 := hversion
      simp only [Tag.asRead, hversion, Message.value, norm]
  | .ext type content, hfits, ⟨hversion, hextensions⟩ => by
      have hlength : (UInt32.ofNat content.length).toNat = content.length :=
        UInt32.toNat_ofNat_of_lt' hfits
      have hencode : Header.encode options (.ext type (UInt32.ofNat content.length)) =
          .ok (Header.encodeExt type (UInt32.ofNat content.length).toNat) := by
        simp [Header.encode, hextensions, hversion]
      exact Stands.payload (.ext type (UInt32.ofNat content.length)) hencode rfl
        (congrArg some hlength) (fun header => rfl) rfl rfl
  | .array items, hfits, hitems => by
      obtain ⟨messages, hencoding, hheld⟩ := held_items items hfits.2 hitems
      have hlength : (UInt32.ofNat items.length).toNat = items.length :=
        UInt32.toNat_ofNat_of_lt' hfits.1
      refine Stands.elements (.array (UInt32.ofNat items.length)) rfl rfl hencoding rfl
        (congrArg some hlength) hheld (fun header => ?_) rfl rfl
      simp only [Tag.asRead, Message.value, hheld.values, norm]
      rfl
  | .map entries, hfits, hentries => by
      obtain ⟨messages, hencoding, hheld⟩ := held_entries entries hfits.2 hentries
      have hlength : (UInt32.ofNat entries.length).toNat = entries.length :=
        UInt32.toNat_ofNat_of_lt' hfits.1
      refine Stands.elements (.map (UInt32.ofNat entries.length)) rfl rfl hencoding rfl
        (congrArg (fun n => some (2 * n)) hlength) hheld (fun header => ?_) rfl rfl
      simp only [Tag.asRead, Message.value, hheld.values, norm, Except.map, paired_unpaired]

theorem held_items : (items : List Value) → FitsItems items → ExpressibleItems options items →
    ∃ messages, itemsEncoding options none items = .ok (Message.text messages) ∧
      Held options items.length (depthItems items) (nodesItems items) (normItems items) messages
  | [], _, _ => ⟨[], rfl, .nil⟩
  | item :: items, hfits, hexpressible => by
      obtain ⟨message, hitem, hstands⟩ := stands_of_expressible item hfits.1 hexpressible.1
      obtain ⟨messages, hitems, hheld⟩ := held_items items hfits.2 hexpressible.2
      refine ⟨message :: messages, ?_, .cons hstands hheld⟩
      rw [itemsEncoding, hitem, hitems]
      rfl

theorem held_entries : (entries : List (Value × Value)) → FitsEntries entries →
    ExpressibleEntries options entries →
      ∃ messages, entriesEncoding options none entries = .ok (Message.text messages) ∧
        Held options (2 * entries.length) (depthEntries entries) (nodesEntries entries)
          (unpaired (normEntries entries)) messages
  | [], _, _ => ⟨[], rfl, .nil⟩
  | (key, value) :: entries, hfits, hexpressible => by
      obtain ⟨first, hkey, hfirst⟩ := stands_of_expressible key hfits.1 hexpressible.1
      obtain ⟨second, hvalue, hsecond⟩ :=
        stands_of_expressible value hfits.2.1 hexpressible.2.1
      obtain ⟨messages, hentries, hheld⟩ := held_entries entries hfits.2.2 hexpressible.2.2
      refine ⟨first :: second :: messages, ?_, .cons hfirst (.cons hsecond hheld)⟩
      rw [entriesEncoding, hkey, hvalue, hentries]
      rfl

end

mutual

theorem Plain.expressible (hplain : Plain options) : (value : Value) →
    (value.HoldsExt → options.extensions = true) → value.Expressible options
  | .nil, _ | .bool _, _ | .int _, _ | .uint _, _ | .str _, _ => True.intro
  | .float _, _ | .double _, _ => hplain.float
  | .bin _, _ => hplain.version
  | .ext _ _, hext => ⟨hplain.version, hext True.intro⟩
  | .array items, hext => hplain.expressible_items items hext
  | .map entries, hext => hplain.expressible_entries entries hext

theorem Plain.expressible_items (hplain : Plain options) : (items : List Value) →
    (HoldsExtItems items → options.extensions = true) → ExpressibleItems options items
  | [], _ => True.intro
  | item :: items, hext =>
      ⟨hplain.expressible item fun hitem => hext (.inl hitem),
        hplain.expressible_items items fun hitems => hext (.inr hitems)⟩

theorem Plain.expressible_entries (hplain : Plain options) : (entries : List (Value × Value)) →
    (HoldsExtEntries entries → options.extensions = true) → ExpressibleEntries options entries
  | [], _ => True.intro
  | (key, value) :: entries, hext =>
      ⟨hplain.expressible key fun hkey => hext (.inl hkey),
        hplain.expressible value fun hvalue => hext (.inr (.inl hvalue)),
        hplain.expressible_entries entries fun hentries => hext (.inr (.inr hentries))⟩

end

theorem stands (hplain : Plain options) (value : Value) (hfits : value.Fits)
    (hext : value.HoldsExt → options.extensions = true) :
    ∃ message, value.encoding options none = .ok message.bytes ∧ Stands options value message :=
  stands_of_expressible value hfits (hplain.expressible value hext)

end Value
end MessagePack
