import MessagePack.Command.Run
import MessagePack.Proofs.JsonTree
import MessagePack.Proofs.RoundTrip

/-!
JSON documents there and back. What is written of a document in any format with native floats is
one message, and the document comes out of it again.
-/

namespace MessagePack

theorem Source.steady_chunk (content : Bytes) : Steady { deliveries := [.chunk content] } := by
  refine ⟨fun delivery hmember => ?_, fun hnone => by cases hnone⟩
  rw [List.mem_singleton.mp hmember]
  trivial

theorem Format.valid_config (format : Format) : format.config.Valid := by
  obtain ⟨extensions, legacy, tracking, rawFloats, maxDepth⟩ := format
  cases legacy <;> simp [Config.Valid, Config.fault?, config]

theorem Format.reserves_config (format : Format) : format.config.Reserves := by
  show Config.Reserves {}
  decide

namespace Json

variable {format : Format} {framing : Value.Framing} {document : Json} {message : Message}
  {source : Source}

/-- A source that holds the message of a document, and nothing else, gives one tree. -/
theorem collect_value {config : Config} (hvalid : config.Valid) (hnode : config.node = true)
    (hreserves : config.Reserves) (hfloat : config.float = .native)
    (hadmits : config.Admits message) (hproper : document.Proper)
    (hvalue : message.value = .ok document.value)
    (hsteady : source.Steady) (hcontent : source.content = message.bytes) :
    ∃ stream tree, Stream.create config source = .ok stream ∧
      Stream.collect #[] stream = ([tree], none) ∧ ofTree tree = .ok document := by
  have hmember : ∀ other ∈ [message], config.Admits other := by
    intro other hother
    rw [List.mem_singleton.mp hother]
    exact hadmits
  have htext : source.content = Message.text [message] := by
    rw [hcontent, Message.text, Message.text, List.append_nil]
  obtain ⟨state, hcreate, hawaits⟩ := Stream.create_awaits hvalid hnode hsteady hmember htext
  obtain ⟨trees, hcollect, hparsed⟩ :=
    Stream.collect_parsed hvalid hnode (fun _ => hreserves) hawaits #[]
  obtain ⟨tree, hparse, hpure⟩ := bind_eq_ok hparsed
  cases hpure
  have hdocument := (Tree.ofTree_of_parseWithin hadmits.complete hparse).trans hvalue
  exact ⟨_, tree, hcreate, hcollect, ofTree_value hfloat hparse hproper hdocument⟩

/-- The bytes of a document that is not too deep, if 32 bits can count them, are one message
whichever way its arrays and objects are framed. Read in the same format it is the document. -/
theorem written_and_read (hnative : format.rawFloats = false) (hproper : document.Proper)
    (hdepth : document.value.depth ≤ format.maxDepth) :
    ∃ bytes, document.value.encoding format.config.tagOptions none = .ok bytes ∧
      (bytes.length < UInt32.size →
        Writer.encode format.config (document.write framing format.float) = .ok bytes ∧
        (∀ source : Source, source.Steady → source.content = bytes →
          ∃ tree, (Stream.create format.config source).map (Stream.collect #[]) =
              .ok ([tree], none) ∧
            ofTree tree = .ok document) ∧
        ∀ (path : String) (place : Place), place.content = .ok bytes →
          ∃ tree, (Command.openMessages format path place).map (Command.readMessages path) =
              .ok ([tree], none) ∧
            ofTree tree = .ok document) := by
  have hvalid := format.valid_config
  have hmode : format.float = .native := by
    rw [Format.float, hnative]
    rfl
  have hexpressible : document.value.Expressible format.config.tagOptions :=
    expressible_value hmode document
  obtain ⟨bytes, hencoding, -, hfits⟩ := hexpressible.hasEncoding
  refine ⟨bytes, hencoding, fun hshort => ?_⟩
  obtain ⟨message, hmessage, hstands⟩ :=
    Value.stands_of_expressible document.value (hfits hshort) hexpressible
  obtain rfl : bytes = message.bytes := Except.ok.inj (hencoding.symm.trans hmessage)
  have hvalue : message.value = .ok document.value := by
    rw [hstands.decoded, norm_value document hproper]
  have hsize : message.bytes.length ≤ maxSize :=
    Nat.le_trans (Nat.le_of_lt hshort) (by decide)
  have hadmits : format.config.Admits message := by
    refine ⟨hstands.complete, ?_, hsize, Nat.le_trans hstands.complete.nodes_le hsize⟩
    rw [hstands.depth, Config.nodeDepthLimit_of_dynamic rfl]
    exact hdepth
  refine ⟨?_, fun source hsteady hcontent => ?_, fun path place hcontent => ?_⟩
  · rw [hmode, write_value]
    have hpages : format.config.builderPageSize ≤ Builder.maxPage :=
      show 4096 ≤ Builder.maxPage by decide
    exact (Value.encode_framed_eq_encoding hvalid rfl rfl (fun _ => ⟨rfl, hpages⟩)
      (hfits hshort)).trans hencoding
  · obtain ⟨stream, tree, hcreate, hcollect, htree⟩ :=
      collect_value hvalid rfl format.reserves_config hmode hadmits hproper hvalue hsteady hcontent
    refine ⟨tree, ?_, htree⟩
    rw [hcreate]
    exact congrArg Except.ok hcollect
  · obtain ⟨stream, tree, hcreate, hcollect, htree⟩ :=
      collect_value hvalid rfl format.reserves_config hmode hadmits hproper hvalue
        (Source.steady_chunk message.bytes) (List.append_nil _)
    have hopen : Command.openMessages format path place = .ok stream := by
      rw [Command.openMessages, Command.sourceAt, hcontent]
      simp only [bind, Except.bind, hcreate]
      rfl
    refine ⟨tree, ?_, htree⟩
    rw [hopen]
    simp only [Except.map, Command.readMessages, hcollect, Option.map_none]

/-- An object that nests up to the limit, built with the legacy headers and without tracking. -/
theorem written_and_read_legacy :
    ∃ (format : Format) (document : Json) (bytes : Bytes),
      format = { legacy := true, tracking := false, maxDepth := 2 } ∧
      document = .object [("", .array [.negative (-1), .double 0x3ff8000000000000]),
        ("a", .unsigned 255), ("é", .null)] ∧
      bytes = [0x83, 0xa0, 0x92, 0xff, 0xcb, 0x3f, 0xf8, 0, 0, 0, 0, 0, 0, 0xa1, 0x61, 0xcc, 0xff,
        0xa2, 0xc3, 0xa9, 0xc0] ∧
      document.value.encoding format.config.tagOptions none = .ok bytes ∧
      Writer.encode format.config (document.write .built format.float) = .ok bytes ∧
      (∃ tree, (Stream.create format.config {
          deliveries := [.chunk bytes], maxRead? := some 1 }).map (Stream.collect #[]) =
            .ok ([tree], none) ∧
        ofTree tree = .ok document) ∧
      ∃ tree, (Command.openMessages format "file" {
          content := .ok bytes, writable := .ok () }).map (Command.readMessages "file") =
            .ok ([tree], none) ∧
        ofTree tree = .ok document := by
  obtain ⟨format, hformat⟩ : ∃ format : Format,
      format = { legacy := true, tracking := false, maxDepth := 2 } := ⟨_, rfl⟩
  obtain ⟨document, hdocument⟩ : ∃ document : Json,
      document = .object [("", .array [.negative (-1), .double 0x3ff8000000000000]),
        ("a", .unsigned 255), ("é", .null)] := ⟨_, rfl⟩
  have hproper : document.Proper := by
    rw [hdocument]
    have hnegative : (-1 : Int64) < 0 := by decide
    exact ⟨by decide +kernel, ⟨hnegative, ⟨false, _, _, rfl⟩, True.intro⟩, True.intro,
      True.intro, True.intro⟩
  have hdepth : document.value.depth ≤ format.maxDepth := by
    rw [hdocument, hformat]
    decide
  obtain ⟨bytes, hencoding, hread⟩ := @written_and_read format .built document
    (by rw [hformat]) hproper hdepth
  have hbytes : bytes = [0x83, 0xa0, 0x92, 0xff, 0xcb, 0x3f, 0xf8, 0, 0, 0, 0, 0, 0, 0xa1, 0x61,
      0xcc, 0xff, 0xa2, 0xc3, 0xa9, 0xc0] := by
    have hvalue : document.value.encoding format.config.tagOptions none = .ok [0x83, 0xa0, 0x92,
        0xff, 0xcb, 0x3f, 0xf8, 0, 0, 0, 0, 0, 0, 0xa1, 0x61, 0xcc, 0xff, 0xa2, 0xc3, 0xa9, 0xc0] := by
      rw [hdocument, hformat]
      decide +kernel
    exact Except.ok.inj (hencoding.symm.trans hvalue)
  obtain ⟨hwrite, hstream, hfile⟩ := hread (by rw [hbytes]; decide)
  refine ⟨format, document, bytes, hformat, hdocument, hbytes, hencoding, hwrite,
    hstream _ ⟨?_, fun hnone => by cases hnone⟩ (List.append_nil _), hfile _ _ rfl⟩
  intro delivery hmember
  rw [List.mem_singleton.mp hmember]
  trivial

end Json
end MessagePack
