import MessagePack.Proofs.Agreement
import MessagePack.Proofs.Spelling
import MessagePack.Proofs.Streaming
import MessagePack.Proofs.Transcript

/-!
Documents there and back. Documents that are written one after the other are read back by a
reader, and come out of a stream as trees, up to the sign of their integers. A stream needs room for
a tree that a reader does not need; where it is refused, the first of them ends the stream.
-/

namespace MessagePack
namespace Value

open Reader.State

variable {config : Config} {source : Source} {values found : List Value}
  {messages : List Message}

def readMany (count : Nat) (reader : Reader Buffered) : Except Error (List Value × Bool) :=
  ((do
    let values ← collect (Latch.call read) count #[]
    let atEnd ← Latch.call Reader.State.atEnd
    return (values, atEnd) : Attempt (Reader Buffered) (List Value × Bool)) reader).1

theorem collect_call {attempt : Attempt σ α} {n : Nat} {state after : σ} {found : List α}
    (hcollect : collect attempt n #[] state = (.ok found, after)) :
    collect (Latch.call attempt) n #[] { state } = (.ok found, { state := after }) := by
  induction n generalizing state found with
  | zero =>
      cases hcollect
      rfl
  | succ n ih =>
      rw [collect_succ] at hcollect ⊢
      obtain ⟨first, middle, hfirst, hrest⟩ := Attempt.bind_eq_ok hcollect
      obtain ⟨others, last, hothers, hpure⟩ := Attempt.bind_eq_ok hrest
      cases hpure
      rw [Attempt.bind_of_ok (Latch.call_of_ok hfirst), Attempt.bind_of_ok (ih hothers)]
      rfl

theorem collect_read_ofBytes (hdynamic : config.dynamicAlloc = true)
    (hcomplete : ∀ message ∈ messages, message.Complete config.tagOptions)
    (hvalues : Message.values messages = .ok found)
    (halloc : (Message.text messages).length ≤ config.maxAlloc) (rest : Bytes) :
    collect read messages.length #[] (ofBytes config (Message.text messages ++ rest)) =
      (.ok found, ofBytes config rest) := by
  induction messages generalizing found with
  | nil =>
      cases hvalues
      rfl
  | cons message messages ih =>
      obtain ⟨first, others, hfirst, hothers, rfl⟩ := Message.values_cons_eq_ok.mp hvalues
      rw [Message.text, List.length_append] at halloc
      rw [Message.text, List.append_assoc, List.length_cons, collect_succ]
      have hread : read (ofBytes config (message.bytes ++ (Message.text messages ++ rest))) = _ :=
        read_ok (accepts_ofBytes _ _ _) (room_ofBytes hdynamic) (hcomplete message (.head _))
          hfirst rfl (show message.bytes.length ≤ config.maxAlloc by omega)
      have hrest := ih (fun other hother => hcomplete other (.tail _ hother)) hothers (by omega)
      rw [Attempt.bind_of_ok hread, passed_ofBytes, Attempt.bind_of_ok hrest]
      rfl

theorem readMany_messages (hvalid : config.Valid) (hreader : config.reader = true)
    (hdynamic : config.dynamicAlloc = true) (hsteady : source.Steady)
    (hcomplete : ∀ message ∈ messages, message.Complete config.tagOptions)
    (hvalues : Message.values messages = .ok found)
    (halloc : (Message.text messages).length ≤ config.maxAlloc)
    (hcontent : source.content = Message.text messages) :
    (Reader.create config source >>= readMany messages.length) = .ok (found, true) := by
  obtain ⟨state, hcreate, halike⟩ := Reader.create_alike hvalid hreader hsteady
  rw [hcontent] at halike
  have hplain := collect_read_ofBytes hdynamic hcomplete hvalues halloc []
  rw [List.append_nil] at hplain
  rcases hrun : collect read messages.length #[] state with ⟨result, after⟩
  obtain ⟨hresult, hafter⟩ :=
    collect_agrees (read_agrees Buffered.simulates) messages.length #[] _ _ halike
  rw [hrun, hplain] at hresult hafter
  obtain rfl : result = .ok found := hresult
  rcases hlast : Reader.State.atEnd after with ⟨outcome, last⟩
  obtain ⟨houtcome, -⟩ := atEnd_agrees Buffered.simulates _ _ hafter
  rw [hlast, atEnd_eq] at houtcome
  obtain rfl : outcome = .ok true := houtcome
  rw [hcreate]
  show readMany messages.length { state } = _
  rw [readMany, Attempt.bind_of_ok (collect_call hrun), Attempt.bind_of_ok (Latch.call_of_ok hlast)]
  rfl

/-- With dynamic allocation there is always room. -/
theorem encode_framed_eq_encoding {value : Value} {framing : Framing} (hvalid : config.Valid)
    (hwriter : config.writer = true) (hdynamic : config.dynamicAlloc = true)
    (hframing : framing = .built →
      config.builder = true ∧ config.builderPageSize ≤ Builder.maxPage) (hfits : value.Fits) :
    value.encode config framing = value.encoding config.tagOptions none := by
  have hroom : config.writeRoom = none := by
    simp [Config.writeRoom, Draft.initial, Nesting.room,
      Config.trackingLimit_of_dynamic hdynamic]
  rw [encode_framed config hframing hfits, hroom, Writer.create_bind_ok hvalid hwriter]

theorem encode_eq_encoding {value : Value} (hvalid : config.Valid) (hwriter : config.writer = true)
    (hdynamic : config.dynamicAlloc = true) (hfits : value.Fits) :
    value.encode config .counted = value.encoding config.tagOptions none :=
  encode_framed_eq_encoding hvalid hwriter hdynamic (fun hbuilt => by cases hbuilt) hfits

/-- Every document is written as a complete message. -/
theorem encode_messages (hvalid : config.Valid) (hwriter : config.writer = true)
    (hdynamic : config.dynamicAlloc = true) (hplain : Plain config.tagOptions)
    (hfits : ∀ value ∈ values, value.Fits)
    (hext : ∀ value ∈ values, value.HoldsExt → config.extensions = true) :
    ∃ messages, values.mapM (encode config .counted) = .ok (messages.map Message.bytes) ∧
      messages.length = values.length ∧ Message.values messages = .ok (values.map norm) ∧
      ∀ message ∈ messages, ∃ value ∈ values, Stands config.tagOptions value message := by
  induction values with
  | nil => exact ⟨[], rfl, rfl, rfl, fun _ hmember => absurd hmember List.not_mem_nil⟩
  | cons value values ih =>
      obtain ⟨message, hencoding, hstands⟩ :=
        stands hplain value (hfits value (.head _)) (hext value (.head _))
      obtain ⟨messages, hencode, hlength, hvalues, hothers⟩ :=
        ih (fun other hother => hfits other (.tail _ hother))
          fun other hother => hext other (.tail _ hother)
      have hfirst : value.encode config .counted = .ok message.bytes :=
        (encode_eq_encoding hvalid hwriter hdynamic (hfits value (.head _))).trans hencoding
      refine ⟨message :: messages, ?_, ?_, ?_, ?_⟩
      · rw [List.mapM_cons, hfirst, hencode]
        rfl
      · rw [List.length_cons, List.length_cons, hlength]
      · rw [Message.values, hstands.decoded, hvalues]
        rfl
      · intro other hother
        rcases List.mem_cons.mp hother with rfl | hother
        · exact ⟨value, .head _, hstands⟩
        · obtain ⟨origin, horigin, hsame⟩ := hothers other hother
          exact ⟨origin, .tail _ horigin, hsame⟩

theorem roundTrip (hvalid : config.Valid) (hversion : config.version = .v5)
    (hreader : config.reader = true) (hwriter : config.writer = true)
    (hnode : config.node = true) (hfloat : config.float = .native)
    (hdynamic : config.dynamicAlloc = true) (hfits : ∀ value ∈ values, value.Fits)
    (hext : ∀ value ∈ values, value.HoldsExt → config.extensions = true)
    (hdepth : ∀ value ∈ values, value.depth ≤ config.maxDepth)
    (hnodes : ∀ value ∈ values, value.nodes ≤ config.maxNodes) :
    ∃ documents, values.mapM (encode config .counted) = .ok documents ∧
      ((∀ document ∈ documents, document.length ≤ config.maxSize) →
        documents.flatten.length ≤ config.maxAlloc →
        ∀ source : Source, source.Steady → source.content = documents.flatten →
          (Reader.create config source >>= readMany values.length) =
              .ok (values.map norm, true) ∧
            ((values ≠ [] → config.Reserves) →
              ∃ trees, (Stream.create config source).map (Stream.collect #[]) =
                  .ok (trees, none) ∧
                trees.mapM ofTree = .ok (values.map norm)) ∧
            (values ≠ [] → ¬config.Reserves →
              ∃ requested, (Stream.create config source).map (Stream.collect #[]) =
                .ok ([], some (.resource requested)))) := by
  have hplain : Plain config.tagOptions := by
    refine ⟨?_, hfloat⟩
    simp [Config.tagOptions, Config.effectiveVersion, hversion]
  obtain ⟨messages, hencode, hlength, hvalues, hstands⟩ :=
    encode_messages hvalid hwriter hdynamic hplain hfits hext
  refine ⟨_, hencode, ?_⟩
  rw [Message.flatten_bytes]
  intro hsize halloc source hsteady hcontent
  have hadmits : ∀ message ∈ messages, config.Admits message := by
    intro message hmember
    obtain ⟨value, hvalue, hsame⟩ := hstands message hmember
    refine ⟨hsame.complete, ?_, hsize _ (List.mem_map_of_mem hmember), ?_⟩
    · rw [hsame.depth, Config.nodeDepthLimit_of_dynamic hdynamic]
      exact hdepth value hvalue
    · rw [hsame.nodes]
      exact hnodes value hvalue
  have hempty : messages ≠ [] ↔ values ≠ [] := by
    rw [← List.length_pos_iff, ← List.length_pos_iff, hlength]
  obtain ⟨state, hcreate, hawaits⟩ := Stream.create_awaits hvalid hnode hsteady hadmits hcontent
  refine ⟨?_, fun hreserves => ?_, fun hsome hreserves => ?_⟩
  · rw [← hlength]
    exact readMany_messages hvalid hreader hdynamic hsteady
      (fun message hmember => (hadmits message hmember).complete) hvalues halloc hcontent
  · obtain ⟨trees, hcollect, htrees⟩ := Stream.collect_awaits hvalid hnode
      (fun hsome => hreserves (hempty.mp hsome)) hawaits #[]
    refine ⟨trees, ?_, htrees.trans hvalues⟩
    rw [hcreate]
    exact congrArg Except.ok hcollect
  · obtain ⟨message, others, rfl⟩ := List.exists_cons_of_ne_nil (hempty.mpr hsome)
    have hbytes : message.bytes ≠ [] :=
      List.ne_nil_of_length_pos (hadmits message (.head _)).complete.length_pos
    obtain ⟨requested, hparse⟩ :=
      Tree.parseWithin_unreserved hvalid hnode hreserves config.maxDepth hbytes
    refine ⟨requested, ?_⟩
    rw [hcreate]
    exact congrArg Except.ok (Stream.collect_unparsed hvalid hawaits hparse #[])

/-- An array that holds a NaN and an ext, read three bytes at a time. -/
theorem roundTrip_pieces :
    [Value.array [.int 5, .float 0x7fc00001], .ext 1 [9]].mapM
        (encode { extensions := true } .counted) =
        .ok [[0x92, 0x05, 0xca, 0x7f, 0xc0, 0x00, 0x01], [0xd4, 0x01, 0x09]] ∧
      (Reader.create { extensions := true } {
          deliveries := [.chunk [0x92, 0x05, 0xca, 0x7f, 0xc0],
            .chunk [0x00, 0x01, 0xd4, 0x01, 0x09]]
          maxRead? := some 3 } >>= readMany 2) =
        .ok ([.array [.uint 5, .float 0x7fc00001], .ext 1 [9]], true) ∧
      ∃ trees, (Stream.create { extensions := true } {
          deliveries := [.chunk [0x92, 0x05, 0xca, 0x7f, 0xc0],
            .chunk [0x00, 0x01, 0xd4, 0x01, 0x09]]
          maxRead? := some 3 }).map (Stream.collect #[]) = .ok (trees, none) ∧
        trees.mapM ofTree = .ok [.array [.uint 5, .float 0x7fc00001], .ext 1 [9]] := by
  have hfits : ∀ value ∈ [Value.array [.int 5, .float 0x7fc00001], .ext 1 [9]], value.Fits := by
    simp [Fits, FitsItems, UInt32.size]
  have hdepth : ∀ value ∈ [Value.array [.int 5, .float 0x7fc00001], .ext 1 [9]],
      value.depth ≤ maxSize ∧ value.nodes ≤ maxSize := by
    simp [depth, depthItems, nodes, nodesItems, maxSize, UInt64.size]
  have hencode : [Value.array [.int 5, .float 0x7fc00001], .ext 1 [9]].mapM
      (encode { extensions := true } .counted) =
        .ok [[0x92, 0x05, 0xca, 0x7f, 0xc0, 0x00, 0x01], [0xd4, 0x01, 0x09]] := by
    rw [List.mapM_cons, List.mapM_cons, encode_counted _ (hfits _ (.head _)),
      encode_counted _ (hfits _ (.tail _ (.head _)))]
    rfl
  obtain ⟨documents, hdocuments, hread⟩ :=
    roundTrip (show Config.Valid { extensions := true } by decide) rfl rfl rfl rfl rfl rfl hfits
      (fun _ _ _ => rfl) (fun value hvalue => (hdepth value hvalue).1)
      (fun value hvalue => (hdepth value hvalue).2)
  rw [hencode] at hdocuments
  cases hdocuments
  obtain ⟨hvalues, htrees, -⟩ := hread (by decide) (by decide) {
    deliveries := [.chunk [0x92, 0x05, 0xca, 0x7f, 0xc0], .chunk [0x00, 0x01, 0xd4, 0x01, 0x09]]
    maxRead? := some 3 } (by decide) rfl
  exact ⟨hencode, hvalues, htrees fun _ => by decide⟩

/-- A nil under a page size that is valid and that no allocation grants. -/
theorem roundTrip_unreserved :
    Config.Valid { nodePageSize := 10000000000000000000 } ∧
      [Value.nil].mapM (encode { nodePageSize := 10000000000000000000 } .counted) =
        .ok [[0xc0]] ∧
      (Stream.create { nodePageSize := 10000000000000000000 }
          { deliveries := [.chunk [0xc0]] }).map (Stream.collect #[]) =
        .ok ([], some (.resource 10000000000000000000)) := by
  have hvalid : Config.Valid { nodePageSize := 10000000000000000000 } := by decide
  have hcomplete : (Message.node [0xc0] .nil [] []).Complete
      (Config.tagOptions { nodePageSize := 10000000000000000000 }) :=
    .node rfl rfl rfl fun _ hnone => by cases hnone
  have hadmits : ∀ message ∈ [Message.node [0xc0] .nil [] []],
      Config.Admits { nodePageSize := 10000000000000000000 } message := by
    intro message hmember
    rw [List.mem_singleton.mp hmember]
    exact ⟨hcomplete, by decide, by decide, by decide⟩
  obtain ⟨state, hcreate, hawaits⟩ :=
    Stream.create_awaits hvalid rfl
      (show Source.Steady { deliveries := [.chunk [0xc0]] } by decide) hadmits rfl
  have hparse : Tree.parseWithin { nodePageSize := 10000000000000000000 } maxSize [0xc0] =
      .error (.resource 10000000000000000000) := by cbv
  refine ⟨hvalid, ?_, ?_⟩
  · rw [List.mapM_cons, encode_counted _ (show Value.nil.Fits from trivial)]
    rfl
  · rw [hcreate]
    exact congrArg Except.ok (Stream.collect_unparsed hvalid hawaits hparse #[])

end Value
end MessagePack
