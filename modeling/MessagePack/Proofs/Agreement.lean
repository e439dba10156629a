import MessagePack.Proofs.Buffering
import MessagePack.Proofs.Config
import MessagePack.Proofs.Reading
import MessagePack.Proofs.Trees

/-!
Readers and trees agree. Both accept exactly the byte strings that are one complete message, and
both come to the value of that message. A parse takes room before it reads a byte, which a reader
does not; where that is refused there is no tree.
-/

namespace MessagePack

/-- Nothing has been read of these bytes. -/
def Reader.State.ofBytes (config : Config) (bytes : Bytes) : Reader.State Bytes where
  input := bytes
  nesting := { enabled := config.readTracking, limit := config.trackingLimit }
  options := config.tagOptions
  maxAlloc := config.maxAlloc

variable {config : Config} {source : Source} {bytes : Bytes} {value : Value}

namespace Reader.State

theorem accepts_ofBytes (config : Config) (bytes : Bytes) (count : Nat) :
    (ofBytes config bytes).nesting.Accepts count :=
  fun _ top htop => by cases htop

theorem room_ofBytes (hdynamic : config.dynamicAlloc = true) :
    (ofBytes config bytes).nesting.room = none := by
  simp [ofBytes, Config.trackingLimit_of_dynamic hdynamic, Nesting.room]

theorem passed_ofBytes (count : Nat) (rest : Bytes) :
    (ofBytes config bytes).passed count rest = ofBytes config rest :=
  rfl

theorem finish_ofBytes : finish (ofBytes config bytes) = (.ok (), ofBytes config bytes) :=
  rfl

end Reader.State

/-- There is room for one level at least. -/
theorem Config.Valid.room_deeper (hvalid : config.Valid) (enabled : Bool) :
    ∃ room, (Nesting.room { enabled, limit := config.trackingLimit }).deeper = .ok room := by
  cases enabled with
  | false => exact ⟨none, rfl⟩
  | true =>
      cases hdynamic : config.dynamicAlloc with
      | true => exact ⟨none, by simp [Nesting.room, trackingLimit, hdynamic, Room.deeper]⟩
      | false =>
          have hceiling := Nat.ne_of_gt (hvalid.ceiling_pos hdynamic)
          exact ⟨some (1, config.maxDepthWithoutAlloc), by
            simp [Nesting.room, Nesting.depth, trackingLimit, hdynamic, Room.deeper, hceiling]⟩

theorem Reader.create_alike (hvalid : config.Valid) (hreader : config.reader = true)
    (hsteady : source.Steady) :
    ∃ state, Reader.create config source = .ok { state } ∧
      State.Alike state (State.ofBytes config source.content) := by
  refine ⟨{
    input := { source, capacity := max config.bufferSize Header.maxSize }
    nesting := { enabled := config.readTracking, limit := config.trackingLimit }
    options := config.tagOptions
    maxAlloc := config.maxAlloc }, ?_, hsteady.holds config.bufferSize, rfl, rfl, rfl⟩
  rw [create, ofInput, hvalid.validate, requireFeature_on hreader]
  rfl

namespace Value

open Reader.State

/-- One value, and whether the input ends with it. -/
def readToEnd {ι : Type} [ByteInput ι] : Attempt (Reader.State ι) (Value × Bool) := do
  let value ← read
  Reader.State.finish
  let atEnd ← Reader.State.atEnd
  return (value, atEnd)

theorem readWhole_eq {ι : Type} [ByteInput ι] (state : Reader.State ι) :
    readWhole { state } = (readToEnd state).1 := by
  simp only [readWhole, Latch.call, readToEnd]
  split <;> next hrun => rw [hrun]

theorem readToEnd_alike : Attempt.Agrees Alike readToEnd readToEnd :=
  .bind (read_agrees Buffered.simulates) fun _ => .bind finish_agrees fun _ =>
    .bind (atEnd_agrees Buffered.simulates) fun _ => .pure _

theorem readWhole_ofBytes (hdynamic : config.dynamicAlloc = true)
    (halloc : bytes.length ≤ config.maxAlloc) :
    readWhole { state := Reader.State.ofBytes config bytes } = .ok (value, true) ↔
      ∃ message : Message, message.Complete config.tagOptions ∧ message.bytes = bytes ∧
        message.value = .ok value := by
  have haccepts := accepts_ofBytes config bytes 1
  have hroom : (Reader.State.ofBytes config bytes).nesting.room = none := room_ofBytes hdynamic
  rw [readWhole_eq]
  constructor
  · intro hwhole
    rcases hrun : readToEnd (Reader.State.ofBytes config bytes) with ⟨result, last⟩
    rw [hrun] at hwhole
    cases hwhole
    obtain ⟨found, middle, hread, hrest⟩ := Attempt.bind_eq_ok hrun
    obtain ⟨message, rest, hcomplete, hvalue, hinput, rfl⟩ := read_eq_ok haccepts hroom hread
    rw [passed_ofBytes, Attempt.bind_of_ok finish_ofBytes, Attempt.bind_of_ok (atEnd_eq _)] at hrest
    obtain ⟨rfl, hend⟩ : found = value ∧ rest.isEmpty = true := by
      obtain ⟨hpair, -⟩ := Prod.mk.inj hrest
      exact Prod.mk.inj (Except.ok.inj hpair)
    rw [List.isEmpty_iff.mp hend, List.append_nil] at hinput
    exact ⟨message, hcomplete, hinput.symm, hvalue⟩
  · rintro ⟨message, hcomplete, rfl, hvalue⟩
    have hread : read (Reader.State.ofBytes config message.bytes) = _ :=
      read_ok haccepts hroom hcomplete hvalue (List.append_nil _).symm halloc
    rw [readToEnd, Attempt.bind_of_ok hread, passed_ofBytes, Attempt.bind_of_ok finish_ofBytes,
      Attempt.bind_of_ok (atEnd_eq _)]
    rfl

/-- A reader takes a whole input exactly where it is one complete message. -/
theorem readWhole_iff (hvalid : config.Valid) (hreader : config.reader = true)
    (hdynamic : config.dynamicAlloc = true) (hsteady : source.Steady)
    (halloc : source.content.length ≤ config.maxAlloc) :
    (Reader.create config source >>= readWhole) = .ok (value, true) ↔
      ∃ message : Message, message.Complete config.tagOptions ∧
        message.bytes = source.content ∧ message.value = .ok value := by
  obtain ⟨state, hcreate, halike⟩ := Reader.create_alike hvalid hreader hsteady
  have hsame : (Reader.create config source >>= readWhole) =
      readWhole { state := Reader.State.ofBytes config source.content } := by
    rw [hcreate]
    show readWhole { state } = _
    rw [readWhole_eq, readWhole_eq]
    exact (readToEnd_alike _ _ halike).1
  rw [hsame]
  exact readWhole_ofBytes hdynamic halloc

/-- A tree is parsed exactly where there is one complete message and room to start. -/
theorem ofTree_iff (hvalid : config.Valid) (hnode : config.node = true)
    (hdynamic : config.dynamicAlloc = true) (hdepth : bytes.length ≤ config.maxDepth)
    (hsize : bytes.length ≤ config.maxSize) (hnodes : bytes.length ≤ config.maxNodes) :
    (Tree.parse config bytes >>= ofTree) = .ok value ↔
      config.Reserves ∧ ∃ message : Message, message.Complete config.tagOptions ∧
        message.bytes = bytes ∧ message.value = .ok value := by
  constructor
  · intro hdocument
    obtain ⟨tree, hparse, hvalue⟩ := bind_eq_ok hdocument
    obtain ⟨message, hcomplete, hbytes, -, hsame⟩ := Tree.parseWithin_eq_ok hparse
    exact ⟨Tree.reserves_of_parseWithin hparse, message, hcomplete, hbytes,
      hsame.symm.trans hvalue⟩
  · rintro ⟨hreserves, message, hcomplete, rfl, hvalue⟩
    have hbelow := hcomplete.nodes_le
    have hnested := message.depth_le_nodes
    have hlimit := Config.nodeDepthLimit_of_dynamic hdynamic config.maxDepth
    obtain ⟨tree, hparse, hsame⟩ : ∃ tree,
        Tree.parseWithin config config.maxDepth message.bytes = .ok tree ∧
          ofTree tree = message.value :=
      Tree.parseWithin_ok hvalid hnode hreserves hcomplete (by omega) hsize (by omega)
    rw [Tree.parse, hparse]
    exact hsame.trans hvalue

/-- The parse of a tree accepts what a reader accepts, to the same value, where it has the room
to start. Where it has not, it fails for want of room, whatever a reader makes of the bytes. -/
theorem ofTree_iff_readWhole (hvalid : config.Valid) (hreader : config.reader = true)
    (hnode : config.node = true) (hdynamic : config.dynamicAlloc = true)
    (hdepth : config.maxDepth = maxSize) (hsize : config.maxSize = maxSize)
    (hnodes : config.maxNodes = maxSize) (hlength : bytes.length < UInt32.size)
    (halloc : bytes.length ≤ config.maxAlloc) (hsteady : source.Steady)
    (hcontent : source.content = bytes) :
    ((Tree.parse config bytes >>= ofTree) = .ok value ↔
      config.Reserves ∧ (Reader.create config source >>= readWhole) = .ok (value, true)) ∧
      (¬config.Reserves → bytes ≠ [] →
        ∃ requested, Tree.parse config bytes = .error (.resource requested)) := by
  have hbelow : bytes.length ≤ maxSize := Nat.le_trans (Nat.le_of_lt hlength) (by decide)
  subst hcontent
  refine ⟨?_, fun hreserves hsome =>
    Tree.parseWithin_unreserved hvalid hnode hreserves config.maxDepth hsome⟩
  rw [readWhole_iff hvalid hreader hdynamic hsteady halloc]
  exact ofTree_iff hvalid hnode hdynamic (by omega) (by omega) (by omega)

/-- An array of two, one byte at a time and with an interruption. -/
theorem ofTree_iff_readWhole_pieces :
    (Tree.parse { bufferSize := 1, readTracking := false } [0x92, 0x01, 0xc0] >>= ofTree) =
        .ok (.array [.uint 1, .nil]) ∧
      (Reader.create { bufferSize := 1, readTracking := false } {
          deliveries := [.chunk [0x92], .failure { kind := .interrupted, text := "again" },
            .chunk [0x01, 0xc0]]
          maxRead? := some 1 } >>= readWhole) = .ok (.array [.uint 1, .nil], true) := by
  have htree : (Tree.parse { bufferSize := 1, readTracking := false } [0x92, 0x01, 0xc0] >>=
      ofTree) = .ok (.array [.uint 1, .nil]) := by cbv
  refine ⟨htree, ((ofTree_iff_readWhole (by decide) rfl rfl rfl rfl rfl rfl (by decide)
    (by decide) ⟨?_, by decide⟩ rfl).1.mp htree).2⟩
  intro delivery hmember
  simp only [List.mem_cons, List.not_mem_nil, or_false] at hmember
  rcases hmember with rfl | rfl | rfl <;> trivial

/-- A nil under a page size that is valid and that no allocation grants. -/
theorem readWhole_unreserved :
    Config.Valid { nodePageSize := 10000000000000000000 } ∧
      (Reader.create { nodePageSize := 10000000000000000000 }
        { deliveries := [.chunk [0xc0]] } >>= readWhole) = .ok (.nil, true) ∧
      (Tree.parse { nodePageSize := 10000000000000000000 } [0xc0] >>= ofTree) =
        .error (.resource 10000000000000000000) := by
  have hvalid : Config.Valid { nodePageSize := 10000000000000000000 } := by decide
  have hsteady : Source.Steady { deliveries := [.chunk [0xc0]] } := by decide
  have hread : (Reader.create { nodePageSize := 10000000000000000000 }
      { deliveries := [.chunk [0xc0]] } >>= readWhole) = .ok (.nil, true) :=
    (readWhole_iff hvalid rfl rfl hsteady (by decide)).mpr
      ⟨.node [0xc0] .nil [] [], .node rfl rfl rfl (fun _ hnone => by cases hnone), rfl, rfl⟩
  exact ⟨hvalid, hread, by cbv⟩

end Value
end MessagePack
