import MessagePack.Proofs.Arena
import MessagePack.Proofs.Document
import MessagePack.Tree.Node

/-!
Parsing a tree. The slots still to be filled form a list in the order of the bytes: an element
is read into the first of them, and the slots of its children come before the others.
-/

namespace MessagePack

/-- No header declares so many children that a page for them would be refused. -/
theorem Tag.reserve_childCount {tag : Tag} {count : Nat} (hcount : tag.childCount? = some count) :
    count * Arena.nodeSize ≤ maxReserve := by
  have hbound : 2 * UInt32.size * Arena.nodeSize ≤ maxReserve := by decide
  refine Nat.le_trans (Nat.mul_le_mul_right _ ?_) hbound
  cases tag <;> cases hcount
  all_goals
    next declared =>
      have hdeclared : declared.toNat < UInt32.size := declared.toNat_lt
      omega

namespace Tree

/-- So many slots from `first` on, with the nesting of the compounds found there. -/
def slotsFrom (first : NodeId) (depth n : Nat) : List (NodeId × Nat) :=
  (List.range n).map fun k => (first.offset k, depth)

theorem slotsFrom_succ (first : NodeId) (depth n : Nat) :
    slotsFrom first depth (n + 1) = (first, depth) :: slotsFrom (first.offset 1) depth n := by
  rw [slotsFrom, List.range_succ_eq_map, List.map_cons, List.map_map]
  refine congrArg _ (List.map_congr_left fun k _ => ?_)
  simp only [Function.comp, NodeId.offset, Nat.add_assoc, Nat.add_comm 1, Nat.succ_eq_add_one]

@[simp] theorem length_slotsFrom (first : NodeId) (depth n : Nat) :
    (slotsFrom first depth n).length = n := by
  rw [slotsFrom, List.length_map, List.length_range]

theorem ids_slotsFrom (first : NodeId) (depth n : Nat) :
    (slotsFrom first depth n).map Prod.fst = (List.range n).map first.offset := by
  rw [slotsFrom, List.map_map]
  rfl

/-- A message as the nodes of an arena have it, payloads being parts of the input. -/
inductive Shown (bytes : Bytes) (arena : Arena) : Message → NodeId → Prop
  | node {header : Bytes} {payload : Bytes} {children : List Message} {id : NodeId}
      {data : NodeData} (hdata : arena.get id = data)
      (hpayload : (bytes.drop data.start).take payload.length = payload)
      (hchildren : ∀ (k : Nat) (hk : k < children.length),
        Shown bytes arena children[k] ((data.children?.getD id).offset k)) :
      Shown bytes arena (.node header data.tag payload children) id

namespace Progress

variable {options : TagOptions} {limits : Limits} {progress after done : Progress}
  {id : NodeId} {depth count n : Nat} {tag : Tag}

def slots (progress : Progress) : List (NodeId × Nat) :=
  progress.levels.flatMap fun level => slotsFrom level.next level.depth level.left

def ids (progress : Progress) : List NodeId :=
  progress.slots.map Prod.fst

section Levels

variable {level : Level} {outer levels : List Level}

theorem slots_none (hlevels : progress.levels = []) : progress.slots = [] := by
  rw [slots, hlevels]
  rfl

theorem slots_full (hlevels : progress.levels = level :: outer) (hleft : level.left = 0) :
    slots { progress with levels := outer } = progress.slots := by
  simp only [slots, hlevels, List.flatMap_cons, hleft]
  rfl

theorem slots_next (hlevels : progress.levels = level :: outer) (hleft : level.left ≠ 0) :
    progress.slots = (level.next, level.depth) :: slots { progress with
      levels := { level with
        next := level.next.offset 1
        left := level.left - 1 } :: outer } := by
  obtain ⟨left, hsucc⟩ := Nat.exists_eq_succ_of_ne_zero hleft
  simp only [slots, hlevels, List.flatMap_cons, hsucc, Nat.succ_eq_add_one, slotsFrom_succ,
    Nat.add_sub_cancel, List.cons_append]

theorem ids_first (hslots : progress.slots = (id, depth) :: slots { progress with levels }) :
    progress.ids = id :: ids { progress with levels } := by
  rw [ids, hslots]
  rfl

end Levels

theorem advance_eq_ok (hadvance : progress.advance limits n = .ok after) :
    progress.position + n ≤ limits.maxSize ∧ after = { progress with
      position := progress.position + n
      rest := progress.rest.drop n } := by
  unfold advance at hadvance
  split at hadvance
  · cases hadvance
  · cases hadvance
    exact ⟨by omega, rfl⟩

theorem advance_ok (hlimit : progress.position + n ≤ limits.maxSize) :
    progress.advance limits n = .ok { progress with
      position := progress.position + n
      rest := progress.rest.drop n } := by
  rw [advance, if_neg (by omega)]

structure Opens (depth n : Nat) (children? : Option NodeId) (progress after : Progress) :
    Prop where
  arena : ∀ id, progress.arena.Extends n (children?.getD id) after.arena
  slots : ∀ id, after.slots = slotsFrom (children?.getD id) (depth + 1) n ++ progress.slots
  deepest : after.deepest = max progress.deepest depth
  rest : after.rest = progress.rest
  position : after.position = progress.position

/-- A compound that is not too deep is opened. If it has children, there are bytes for them, the
limit on nodes admits them, and they get a run of slots. -/
theorem openRun_cases {children? : Option NodeId}
    (hopen : progress.openRun limits depth n = .ok (children?, after)) :
    depth ≤ limits.maxDepth ∧
      (n = 0 ∧ children? = none ∧
          after = { progress with deepest := max progress.deepest depth } ∨
        0 < n ∧ n ≤ progress.rest.length ∧ progress.arena.count + n ≤ limits.maxNodes ∧
          ∃ first arena, progress.arena.allocate n = .ok (first, arena) ∧
            children? = some first ∧ after = { progress with
              arena
              levels := { next := first, left := n, depth := depth + 1 } :: progress.levels
              deepest := max progress.deepest depth }) := by
  unfold openRun at hopen
  split at hopen
  · cases hopen
  · next hdepth =>
      refine ⟨Nat.le_of_not_lt hdepth, ?_⟩
      split at hopen
      · next hzero =>
          cases hopen
          exact .inl ⟨hzero, rfl, rfl⟩
      · next hsome =>
          split at hopen
          · cases hopen
          · next henough =>
              split at hopen
              · cases hopen
              · next hnodes =>
                  obtain ⟨⟨first, arena⟩, hallocate, hpure⟩ := bind_eq_ok hopen
                  cases hpure
                  rw [Bool.not_eq_true, Bool.not_eq_false', hasAtLeast_iff] at henough
                  exact .inr ⟨Nat.pos_of_ne_zero hsome, henough, Nat.le_of_not_lt hnodes, first,
                    arena, hallocate, rfl, rfl⟩

theorem openRun_eq_ok {children? : Option NodeId}
    (hopen : progress.openRun limits depth n = .ok (children?, after)) :
    Opens depth n children? progress after := by
  obtain ⟨-, ⟨rfl, rfl, rfl⟩ | ⟨hpos, -, -, first, arena, hallocate, rfl, rfl⟩⟩ :=
    openRun_cases hopen
  · exact ⟨fun _ => .none _ _, fun _ => rfl, rfl, rfl, rfl⟩
  · exact ⟨fun _ => Arena.allocate_extends hpos hallocate, fun _ => rfl, rfl, rfl, rfl⟩

theorem openRun_ok (hdepth : depth ≤ limits.maxDepth) (hrest : n ≤ progress.rest.length)
    (hnodes : progress.arena.count + n ≤ limits.maxNodes) (hgranted : progress.arena.Granted)
    (hn : n * Arena.nodeSize ≤ maxReserve) :
    ∃ opened, progress.openRun limits depth n = .ok opened := by
  have henough : hasAtLeast n progress.rest = true := (hasAtLeast_iff _ _).mpr hrest
  unfold openRun
  rw [if_neg (by omega)]
  by_cases hzero : n = 0
  · exact ⟨_, by rw [if_pos hzero]⟩
  · obtain ⟨first, arena, hallocate⟩ := Arena.allocate_ok hgranted hn
    simp only [hzero, henough, Nat.not_lt.mpr hnodes, hallocate, if_false, Bool.not_true,
      Bool.false_eq_true]
    exact ⟨_, rfl⟩

/-- A header and its payload are read into a slot, and slots are taken for the children. -/
structure Fills (options : TagOptions) (id : NodeId) (depth : Nat) (header payload : Bytes)
    (node : NodeData) (progress after : Progress) : Prop where
  rest : progress.rest = header ++ (payload ++ after.rest)
  decoded : Header.decode options header = .ok (node.tag, header.length)
  enclosed : payload.length = node.tag.payloadLength?.getD 0
  start : node.start = progress.position + header.length
  position : after.position = progress.position + header.length + payload.length
  arena : ∃ arena, progress.arena.Extends (node.tag.childCount?.getD 0)
    (node.children?.getD id) arena ∧ after.arena = arena.set id node
  slots : after.slots = slotsFrom (node.children?.getD id) (depth + 1)
    (node.tag.childCount?.getD 0) ++ progress.slots
  deepest : progress.deepest ≤ after.deepest
  reached : after.deepest = progress.deepest ∨
    node.tag.childCount? ≠ none ∧ after.deepest = depth
  depth : node.tag.childCount? ≠ none → depth ≤ after.deepest

theorem readElement_eq_ok (hread : progress.readElement options limits id depth = .ok after) :
    ∃ header payload node, Fills options id depth header payload node progress after := by
  obtain ⟨⟨tag, size⟩, hdecode, hread⟩ := bind_eq_ok hread
  obtain ⟨header, rest, hrest, rfl, hheader⟩ := Header.decode_split hdecode
  obtain ⟨body, hbody, hread⟩ := bind_eq_ok hread
  obtain ⟨-, rfl⟩ := advance_eq_ok hbody
  have hdrop : progress.rest.drop header.length = rest := by rw [hrest, List.drop_left]
  simp only [hdrop] at hread
  split at hread
  · next length hlength =>
      have hcount := Tag.childCount_of_payload hlength
      obtain ⟨_, hrequire, hread⟩ := bind_eq_ok hread
      obtain ⟨payload, hpayload, hread⟩ := bind_eq_ok hread
      obtain ⟨-, rfl⟩ := advance_eq_ok hpayload
      cases hread
      have henough : length ≤ rest.length := by
        unfold require at hrequire
        split at hrequire
        · next hhas => exact (hasAtLeast_iff _ _).mp hhas
        · cases hrequire
      refine ⟨header, rest.take length, { tag, start := progress.position + header.length },
        ?_, hheader, ?_, rfl, ?_, ?_, ?_, Nat.le_refl _, .inl rfl, fun hnone => absurd hcount hnone⟩
      · simp only [place, List.take_append_drop, hrest]
      · simp only [hlength, Option.getD_some, List.length_take_of_le henough]
      · simp only [place, List.length_take_of_le henough]
      · exact ⟨_, by rw [hcount]; exact .none _ _, rfl⟩
      · rw [hcount]
        rfl
  · next count hlength hcount =>
      obtain ⟨⟨children?, opened⟩, hopen, hread⟩ := bind_eq_ok hread
      cases hread
      have hopens := openRun_eq_ok hopen
      refine ⟨header, [], { tag, start := progress.position + header.length, children? },
        ?_, hheader, ?_, rfl, hopens.position, ⟨opened.arena, ?_, rfl⟩, ?_, ?_, ?_, fun _ => ?_⟩
      · simp only [place, hopens.rest, hrest, List.nil_append]
      · simp only [hlength]
        rfl
      · rw [hcount]
        exact hopens.arena id
      · rw [hcount]
        exact hopens.slots id
      · simp only [place, hopens.deepest]
        exact Nat.le_max_left _ _
      · simp only [place, hopens.deepest, hcount]
        rcases Nat.le_total progress.deepest depth with hbelow | habove
        · exact .inr ⟨Option.some_ne_none _, Nat.max_eq_right hbelow⟩
        · exact .inl (Nat.max_eq_left habove)
      · simp only [place, hopens.deepest]
        exact Nat.le_max_right _ _
  · next hlength hcount =>
      cases hread
      refine ⟨header, [], { tag, start := progress.position + header.length }, hrest, hheader, ?_,
        rfl, rfl, ⟨_, by rw [hcount]; exact .none _ _, rfl⟩, ?_, Nat.le_refl _,
        .inl rfl, fun hnone => absurd hcount hnone⟩
      · rw [hlength]
        rfl
      · rw [hcount]
        rfl

theorem readElement_ok {header payload rest : Bytes}
    (hrest : progress.rest = header ++ (payload ++ rest))
    (hheader : Header.decode options header = .ok (tag, header.length))
    (hpayload : payload.length = tag.payloadLength?.getD 0)
    (hsize : progress.position + header.length + payload.length ≤ limits.maxSize)
    (hdepth : tag.childCount? ≠ none → depth ≤ limits.maxDepth)
    (hchildren : tag.childCount?.getD 0 ≤ rest.length)
    (hnodes : progress.arena.count + tag.childCount?.getD 0 ≤ limits.maxNodes)
    (hgranted : progress.arena.Granted) :
    ∃ after, progress.readElement options limits id depth = .ok after := by
  have hdecode : Header.decode options progress.rest = .ok (tag, header.length) := by
    rw [hrest]
    exact Header.decode_append hheader _
  have hdrop : progress.rest.drop header.length = payload ++ rest := by
    rw [hrest, List.drop_left]
  rw [readElement, hdecode]
  simp only [bind, Except.bind]
  rw [advance_ok (by omega)]
  simp only [hdrop]
  split
  · next length hlength =>
      rw [hlength, Option.getD_some] at hpayload
      have hrequire : require length { progress with
          position := progress.position + header.length, rest := payload ++ rest } = .ok () := by
        rw [require, if_pos]
        rw [hasAtLeast_iff, List.length_append]
        omega
      rw [hrequire]
      simp only
      rw [advance_ok (by simp only; omega)]
      exact ⟨_, rfl⟩
  · next count hlength hcount =>
      rw [hlength] at hpayload
      rw [hcount] at hdepth hchildren hnodes
      obtain ⟨opened, hopened⟩ : ∃ opened, openRun limits depth count { progress with
          position := progress.position + header.length, rest := payload ++ rest } = .ok opened :=
        openRun_ok (hdepth (by simp))
          (by rw [List.length_append]; exact Nat.le_add_left_of_le hchildren) hnodes hgranted
          (Tag.reserve_childCount hcount)
      rw [hopened]
      exact ⟨_, rfl⟩
  · exact ⟨_, rfl⟩

/-- Slots to fill are there, each of them once. -/
structure Tidy (ids : List NodeId) (arena : Arena) : Prop where
  nodup : ids.Nodup
  taken : ∀ id ∈ ids, ∃ node, arena.slot? id = some node

section Fills

variable {header payload : Bytes} {node found : NodeData} {other first : NodeId}

theorem fresh_of_mem {before between : Arena} (hextends : before.Extends n first between)
    (hchild : other ∈ (List.range n).map first.offset) :
    before.slot? other = none ∧ between.slot? other = some .empty := by
  obtain ⟨k, hk, rfl⟩ := List.mem_map.mp hchild
  rw [List.mem_range] at hk
  exact ⟨hextends.fresh hk, hextends.filled hk⟩

theorem nodup_offsets (first : NodeId) (n : Nat) : ((List.range n).map first.offset).Nodup := by
  refine List.Pairwise.map _ (fun k m hne hsame => hne ?_) List.nodup_range
  have hindex : (first.offset k).index = (first.offset m).index := by rw [hsame]
  simp only [NodeId.offset] at hindex
  omega

theorem Fills.ids_eq (hfills : Fills options id depth header payload node progress after) :
    after.ids = (List.range (node.tag.childCount?.getD 0)).map (node.children?.getD id).offset ++
      progress.ids := by
  rw [ids, hfills.slots, List.map_append, ids_slotsFrom, ids]

theorem Fills.not_mem (hfills : Fills options id depth header payload node progress after)
    (hslot : progress.arena.slot? other = some found) (hother : other ∉ progress.ids) :
    other ∉ after.ids := by
  obtain ⟨arena, hextends, -⟩ := hfills.arena
  rw [hfills.ids_eq, List.mem_append]
  rintro (hchild | houter)
  · rw [(fresh_of_mem hextends hchild).1] at hslot
    cases hslot
  · exact hother houter

theorem Fills.kept (hfills : Fills options id depth header payload node progress after)
    (hslot : progress.arena.slot? other = some found) (hne : other ≠ id) :
    after.arena.slot? other = some found := by
  obtain ⟨arena, hextends, harena⟩ := hfills.arena
  rw [harena, Arena.slot_set_other hne, hextends.kept hslot]

theorem Fills.filled (hfills : Fills options id depth header payload node progress after)
    (hslot : progress.arena.slot? id = some found) : after.arena.slot? id = some node := by
  obtain ⟨arena, hextends, harena⟩ := hfills.arena
  rw [harena, Arena.slot_set_same (hextends.kept hslot)]

theorem Fills.tidy (hfills : Fills options id depth header payload node progress after)
    (htidy : Tidy (id :: progress.ids) progress.arena) : Tidy after.ids after.arena := by
  obtain ⟨arena, hextends, harena⟩ := hfills.arena
  rw [hfills.ids_eq, harena]
  refine ⟨?_, ?_⟩
  · refine List.nodup_append.mpr ⟨nodup_offsets _ _, (List.nodup_cons.mp htidy.nodup).2, ?_⟩
    rintro child hchild outer houter rfl
    obtain ⟨held, hheld⟩ := htidy.taken child (List.mem_cons_of_mem _ houter)
    rw [(fresh_of_mem hextends hchild).1] at hheld
    cases hheld
  · intro other hother
    rcases List.mem_append.mp hother with hchild | houter
    · exact Arena.slot_set (fresh_of_mem hextends hchild).2
    · obtain ⟨held, hheld⟩ := htidy.taken other (List.mem_cons_of_mem _ houter)
      exact Arena.slot_set (hextends.kept hheld)

end Fills

theorem run_bind (hlevels : progress.levels ≠ []) :
    progress.run options limits = progress.step options limits >>= run options limits := by
  rw [run, dif_neg hlevels]
  split <;> next hstep => rw [hstep]; rfl

/-- A step leaves a level that is full, or fills the first slot. -/
theorem step_eq_ok (hlevels : progress.levels ≠ [])
    (hstep : progress.step options limits = .ok after) :
    ∃ levels, (after = { progress with levels } ∧ after.slots = progress.slots) ∨
      ∃ id depth header payload node,
        progress.slots = (id, depth) :: slots { progress with levels } ∧
        Fills options id depth header payload node { progress with levels } after := by
  unfold step at hstep
  split at hstep
  · next hnil => exact absurd hnil hlevels
  · next level outer hcons =>
      split at hstep
      · next hleft =>
          cases hstep
          exact ⟨outer, .inl ⟨rfl, slots_full hcons hleft⟩⟩
      · next hleft =>
          obtain ⟨header, payload, node, hfills⟩ := readElement_eq_ok hstep
          exact ⟨_, .inr ⟨level.next, level.depth, header, payload, node, slots_next hcons hleft,
            hfills⟩⟩

/-- From here to there, the slots have been filled with these messages. -/
structure Parsed (options : TagOptions) (bytes : Bytes) (progress done : Progress)
    (messages : List Message) : Prop where
  length : messages.length = progress.slots.length
  complete : ∀ message ∈ messages, message.Complete options
  rest : progress.rest = Message.text messages ++ done.rest
  position : done.position = progress.position + (Message.text messages).length
  deepest : progress.deepest ≤ done.deepest
  kept : ∀ {other found}, progress.arena.slot? other = some found → other ∉ progress.ids →
    done.arena.slot? other = some found
  shown : ∀ {id depth message}, ((id, depth), message) ∈ progress.slots.zip messages →
    Shown bytes done.arena message id ∧
      (0 < message.depth → depth + message.depth ≤ done.deepest + 1)

section Parsed

variable {bytes header payload : Bytes} {node found : NodeData} {messages : List Message}
  {levels : List Level}

theorem Parsed.full (hslots : progress.slots = []) : Parsed options bytes progress progress [] := by
  refine ⟨by rw [hslots]; rfl, ?_, rfl, rfl, Nat.le_refl _, fun hslot _ => hslot, ?_⟩
  · exact fun _ hmember => absurd hmember List.not_mem_nil
  · intro id depth message hmember
    rw [List.zip_nil_right] at hmember
    exact absurd hmember List.not_mem_nil

theorem mem_zip_slotsFrom {first : NodeId} {outer : List (NodeId × Nat)} {k : Nat} (hk : k < n)
    (hmessage : k < messages.length) :
    ((first.offset k, depth), messages[k]) ∈
      (slotsFrom first depth n ++ outer).zip messages := by
  have hlength : k < (slotsFrom first depth n).length := by
    rw [length_slotsFrom]
    exact hk
  refine List.mem_iff_getElem.mpr ⟨k, ?_, ?_⟩
  · rw [List.length_zip, List.length_append]
    omega
  · rw [List.getElem_zip, List.getElem_append_left hlength]
    simp [slotsFrom]

theorem mem_zip_outer {first : NodeId} {outer : List (NodeId × Nat)} {slot : NodeId × Nat}
    {message : Message} (hlength : n ≤ messages.length)
    (hmember : (slot, message) ∈ outer.zip (messages.drop n)) :
    (slot, message) ∈ (slotsFrom first depth n ++ outer).zip messages := by
  have hsame : (slotsFrom first depth n).length = (messages.take n).length := by
    rw [length_slotsFrom, List.length_take_of_le hlength]
  have hzip : (slotsFrom first depth n ++ outer).zip (messages.take n ++ messages.drop n) =
      (slotsFrom first depth n).zip (messages.take n) ++ outer.zip (messages.drop n) :=
    List.zip_append hsame
  rw [List.take_append_drop] at hzip
  rw [hzip]
  exact List.mem_append_right _ hmember

/-- What is read into the first slot has the messages read next as its children. -/
theorem Parsed.first
    (hfills : Fills options id depth header payload node { progress with levels } after)
    (hrest : progress.rest = bytes.drop progress.position)
    (htidy : Tidy (id :: ids { progress with levels }) progress.arena)
    (hparsed : Parsed options bytes after done messages)
    (hcount : node.tag.childCount?.getD 0 = count) (hlength : count ≤ messages.length) :
    Shown bytes done.arena (.node header node.tag payload (messages.take count)) id ∧
      (0 < (Message.node header node.tag payload (messages.take count)).depth →
        depth + (Message.node header node.tag payload (messages.take count)).depth ≤
          done.deepest + 1) := by
  obtain ⟨held, hheld⟩ := htidy.taken id (.head _)
  have hslot : done.arena.slot? id = some node :=
    hparsed.kept (hfills.filled hheld)
      (hfills.not_mem hheld (List.nodup_cons.mp htidy.nodup).1)
  have hbehind : bytes.drop node.start = payload ++ after.rest := by
    rw [hfills.start, ← List.drop_drop, ← hrest, hfills.rest, List.drop_left]
  have hchild : ∀ (k : Nat) (hk : k < (messages.take count).length),
      Shown bytes done.arena (messages.take count)[k] ((node.children?.getD id).offset k) ∧
        (0 < (messages.take count)[k].depth →
          depth + 1 + (messages.take count)[k].depth ≤ done.deepest + 1) := by
    intro k hk
    rw [List.length_take] at hk
    rw [List.getElem_take]
    refine hparsed.shown ?_
    rw [hfills.slots, hcount]
    exact mem_zip_slotsFrom (by omega) (by omega)
  refine ⟨.node (Arena.get_of_slot hslot) ?_ fun k hk => (hchild k hk).1, ?_⟩
  · rw [hbehind, List.take_left]
  · intro hdepth
    rw [Message.depth] at hdepth ⊢
    cases hopens : node.tag.childCount? with
    | none => simp [hopens] at hdepth
    | some owed =>
        have hreached := hfills.depth (by simp [hopens])
        have hbelow := hparsed.deepest
        have hdepths : Message.depths (messages.take count) ≤ done.deepest - depth := by
          refine Message.depths_le fun child hmember => ?_
          obtain ⟨k, hk, rfl⟩ := List.mem_iff_getElem.mp hmember
          have := (hchild k hk).2
          omega
        simp only
        omega

theorem Parsed.fill
    (hslots : progress.slots = (id, depth) :: slots { progress with levels })
    (hfills : Fills options id depth header payload node { progress with levels } after)
    (hrest : progress.rest = bytes.drop progress.position)
    (htidy : Tidy progress.ids progress.arena)
    (hparsed : Parsed options bytes after done messages) :
    Parsed options bytes progress done
      (.node header node.tag payload (messages.take (node.tag.childCount?.getD 0)) ::
        messages.drop (node.tag.childCount?.getD 0)) := by
  have hlength : messages.length =
      node.tag.childCount?.getD 0 + (slots { progress with levels }).length := by
    rw [hparsed.length, hfills.slots, List.length_append, length_slotsFrom]
  generalize hcount : node.tag.childCount?.getD 0 = count at hlength ⊢
  have htext : Message.text messages =
      Message.text (messages.take count) ++ Message.text (messages.drop count) := by
    rw [← Message.text_append, List.take_append_drop]
  have hids := ids_first hslots
  rw [hids] at htidy
  have hfirst := Parsed.first hfills hrest htidy hparsed hcount (by omega)
  refine ⟨?_, ?_, ?_, ?_, ?_, ?_, ?_⟩
  · rw [hslots, List.length_cons, List.length_cons, List.length_drop, hlength,
      Nat.add_sub_cancel_left]
  · intro message hmember
    rcases List.mem_cons.mp hmember with rfl | hmember
    · refine .node hfills.decoded hfills.enclosed ?_ fun child hchild =>
        hparsed.complete child (List.mem_of_mem_take hchild)
      rw [List.length_take, hcount]
      omega
    · exact hparsed.complete message (List.mem_of_mem_drop hmember)
  · have hall := hfills.rest
    rw [hparsed.rest, htext] at hall
    simp only [Message.text, Message.bytes, List.append_assoc] at hall ⊢
    exact hall
  · rw [hparsed.position, hfills.position, htext]
    simp only [Message.text, Message.bytes, List.length_append]
    omega
  · exact Nat.le_trans hfills.deepest hparsed.deepest
  · intro other found hslot hother
    rw [hids, List.mem_cons, not_or] at hother
    exact hparsed.kept (hfills.kept hslot hother.1) (hfills.not_mem hslot hother.2)
  · intro slot nesting message hmember
    rw [hslots, List.zip_cons_cons, List.mem_cons] at hmember
    rcases hmember with hhead | houter
    · obtain ⟨⟨rfl, rfl⟩, rfl⟩ := hhead
      exact hfirst
    · refine hparsed.shown ?_
      rw [hfills.slots, hcount]
      exact mem_zip_outer (by omega) houter

end Parsed

/-- A tree is parsed only where complete messages stand. -/
theorem run_eq_ok {bytes : Bytes} (hrun : progress.run options limits = .ok done)
    (hrest : progress.rest = bytes.drop progress.position)
    (htidy : Tidy progress.ids progress.arena) :
    ∃ messages, Parsed options bytes progress done messages := by
  fun_induction run options limits progress with
  | case1 progress hlevels =>
      cases hrun
      exact ⟨[], .full (slots_none hlevels)⟩
  | case2 progress hlevels after hstep ih =>
      obtain ⟨levels, ⟨rfl, hslots⟩ | ⟨id, depth, header, payload, node, hslots, hfills⟩⟩ :=
        step_eq_ok hlevels hstep
      · have hids : ids { progress with levels } = progress.ids :=
          congrArg (List.map Prod.fst) hslots
        obtain ⟨messages, hparsed⟩ := ih hrun hrest (by rw [hids]; exact htidy)
        refine ⟨messages, { hparsed with length := ?_, kept := ?_, shown := ?_ }⟩
        · rw [hparsed.length, hslots]
        · rw [← hids]
          exact hparsed.kept
        · rw [← hslots]
          exact hparsed.shown
      · have hids := ids_first hslots
        have hafter : after.rest = bytes.drop after.position := by
          have hdrop : progress.rest.drop (header.length + payload.length) = after.rest := by
            rw [show progress.rest = _ from hfills.rest, ← List.drop_drop, List.drop_left,
              List.drop_left]
          rw [hfills.position, Nat.add_assoc, ← List.drop_drop, ← hrest, hdrop]
        obtain ⟨messages, hparsed⟩ := ih hrun hafter (hfills.tidy (by rw [← hids]; exact htidy))
        exact ⟨_, hparsed.fill hslots hfills hrest htidy⟩
  | case3 progress hlevels error hstep => cases hrun

/-- The messages that the slots are for come next. -/
structure Facing (options : TagOptions) (progress : Progress) (messages : List Message)
    (rest : Bytes) : Prop where
  length : messages.length = progress.slots.length
  complete : ∀ message ∈ messages, message.Complete options
  rest : progress.rest = Message.text messages ++ rest

section Facing

variable {messages children : List Message} {rest header payload : Bytes} {levels : List Level}

/-- What is read is the message that stands there, and its children come next. -/
theorem Facing.fill
    (hfacing : Facing options progress (.node header tag payload children :: messages) rest)
    (hslots : progress.slots = (id, depth) :: slots { progress with levels })
    (hread : readElement options limits id depth { progress with levels } = .ok after) :
    ∃ node, Fills options id depth header payload node { progress with levels } after ∧
      node.tag = tag ∧ Facing options after (children ++ messages) rest := by
  obtain ⟨found, content, node, hfills⟩ := readElement_eq_ok hread
  have hcomplete := hfacing.complete _ (.head _)
  cases hcomplete with
  | node hheader hpayload hcount hchildren =>
      have hrest := hfacing.rest
      have hlength := hfacing.length
      simp only [Message.text, Message.bytes, List.append_assoc, List.length_cons, hslots]
        at hrest hlength
      obtain ⟨rfl, rfl, hbehind⟩ := Header.decode_unique hfills.decoded hheader
        (hfills.rest.symm.trans hrest)
      obtain ⟨rfl, hafter⟩ := List.append_inj hbehind (hfills.enclosed.trans hpayload.symm)
      refine ⟨node, hfills, rfl, ?_, ?_, ?_⟩
      · rw [hfills.slots, List.length_append, List.length_append, length_slotsFrom, hcount]
        omega
      · intro message hmember
        rcases List.mem_append.mp hmember with hchild | houter
        · exact hchildren message hchild
        · exact hfacing.complete message (.tail _ houter)
      · rw [hafter, Message.text_append, List.append_assoc]

end Facing

/-- The messages that the slots are for come next, and keep within the limits. -/
structure Ready (options : TagOptions) (limits : Limits) (progress : Progress)
    (messages : List Message) (rest : Bytes) : Prop where
  length : messages.length = progress.slots.length
  complete : ∀ message ∈ messages, message.Complete options
  rest : progress.rest = Message.text messages ++ rest
  size : progress.position + (Message.text messages).length ≤ limits.maxSize
  depth : ∀ {id depth message}, ((id, depth), message) ∈ progress.slots.zip messages →
    depth + message.depth ≤ limits.maxDepth + 1
  nodes : progress.arena.count + Message.nodesOf messages ≤ limits.maxNodes + messages.length
  granted : progress.arena.Granted

section Ready

variable {messages children : List Message} {rest header payload : Bytes} {node : NodeData}
  {levels : List Level}

theorem Ready.facing (hready : Ready options limits progress messages rest) :
    Facing options progress messages rest :=
  ⟨hready.length, hready.complete, hready.rest⟩

theorem Ready.first {message : Message}
    (hready : Ready options limits progress (message :: messages) rest)
    (hslots : progress.slots = (id, depth) :: slots { progress with levels }) :
    depth + message.depth ≤ limits.maxDepth + 1 := by
  have hmember : ((id, depth), message) ∈ progress.slots.zip (message :: messages) := by
    rw [hslots, List.zip_cons_cons]
    exact .head _
  exact hready.depth hmember

theorem Ready.reads
    (hready : Ready options limits progress (.node header tag payload children :: messages) rest)
    (hslots : progress.slots = (id, depth) :: slots { progress with levels }) :
    ∃ after, readElement options limits id depth { progress with levels } = .ok after := by
  have hcomplete := hready.complete _ (.head _)
  cases hcomplete with
  | node hheader hpayload hcount hchildren =>
      have hrest := hready.rest
      have hsize := hready.size
      have hnodes := hready.nodes
      simp only [Message.text, Message.bytes, Message.nodesOf, Message.nodes, List.append_assoc,
        List.length_append, List.length_cons] at hrest hsize hnodes
      have hlength := Message.length_le_text hchildren
      have hbelow := Message.length_le_nodesOf children
      have haround := Message.length_le_nodesOf messages
      refine readElement_ok hrest hheader hpayload ?_ ?_ ?_ ?_ hready.granted
      · simp only
        omega
      · intro hopens
        have hdepth := hready.first hslots
        rw [Message.depth_node hopens] at hdepth
        omega
      · rw [← hcount]
        simp only [List.length_append]
        omega
      · rw [← hcount]
        simp only
        omega

theorem Ready.fill
    (hready : Ready options limits progress (.node header tag payload children :: messages) rest)
    (hslots : progress.slots = (id, depth) :: slots { progress with levels })
    (hread : readElement options limits id depth { progress with levels } = .ok after) :
    Ready options limits after (children ++ messages) rest := by
  obtain ⟨node, hfills, rfl, hfacing⟩ := hready.facing.fill hslots hread
  have hcomplete := hready.complete _ (.head _)
  cases hcomplete with
  | node hheader hpayload hcount hchildren =>
      have hsize := hready.size
      have hnodes := hready.nodes
      simp only [Message.text, Message.bytes, Message.nodesOf, Message.nodes, List.append_assoc,
        List.length_append, List.length_cons] at hsize hnodes
      obtain ⟨arena, hextends, harena⟩ := hfills.arena
      have hopened : after.arena.count = progress.arena.count + children.length := by
        rw [harena, hcount]
        exact hextends.count
      have hgranted : after.arena.Granted := by
        rw [harena]
        exact hextends.granted hready.granted
      refine ⟨hfacing.length, hfacing.complete, hfacing.rest, ?_, ?_, ?_, hgranted⟩
      · rw [hfills.position, Message.text_append, List.length_append]
        simp only
        omega
      · intro slot nesting message hmember
        have hsame : (slotsFrom (node.children?.getD id) (depth + 1)
            (node.tag.childCount?.getD 0)).length = children.length := by
          rw [length_slotsFrom, hcount]
        rw [hfills.slots, List.zip_append hsame, List.mem_append] at hmember
        rcases hmember with hchild | houter
        · obtain ⟨hslot, hinside⟩ := List.of_mem_zip hchild
          obtain ⟨k, -, hk⟩ := List.mem_map.mp hslot
          cases hk
          have hdepth := hready.first hslots
          have hbelow := Message.le_depths hinside
          have hopens : node.tag.childCount? ≠ none := by
            intro hnone
            rw [hnone] at hcount
            rw [List.eq_nil_of_length_eq_zero hcount] at hinside
            exact absurd hinside List.not_mem_nil
          rw [Message.depth_node hopens] at hdepth
          omega
        · refine hready.depth (?_ : ((slot, nesting), message) ∈ _)
          rw [hslots, List.zip_cons_cons]
          exact .tail _ houter
      · rw [hopened, Message.nodesOf_append, List.length_append]
        omega

theorem Ready.step (hready : Ready options limits progress messages rest)
    (hlevels : progress.levels ≠ []) :
    ∃ after, progress.step options limits = .ok after ∧
      ∃ others, Ready options limits after others rest := by
  unfold Progress.step
  split
  · next hnil => exact absurd hnil hlevels
  · next level outer hcons =>
      split
      · next hleft =>
          have hslots := slots_full hcons hleft
          refine ⟨_, rfl, messages, { hready with length := ?_, depth := ?_ }⟩
          · rw [hready.length, hslots]
          · rw [hslots]
            exact hready.depth
      · next hleft =>
          have hslots := slots_next hcons hleft
          cases messages with
          | nil =>
              have hlength := hready.length
              rw [hslots] at hlength
              cases hlength
          | cons message messages =>
              obtain ⟨header, tag, payload, children⟩ := message
              obtain ⟨after, hread⟩ := hready.reads hslots
              exact ⟨after, hread, _, hready.fill hslots hread⟩

theorem run_ok (hready : Ready options limits progress messages rest) :
    ∃ done, progress.run options limits = .ok done ∧ done.rest = rest := by
  fun_induction run options limits progress generalizing messages with
  | case1 progress hlevels =>
      have hlength := hready.length
      rw [slots_none hlevels] at hlength
      have hrest := hready.rest
      rw [List.eq_nil_of_length_eq_zero hlength] at hrest
      exact ⟨progress, rfl, hrest⟩
  | case2 progress hlevels after hstep ih =>
      obtain ⟨next, hnext, others, hothers⟩ := hready.step hlevels
      rw [hnext] at hstep
      cases hstep
      exact ih hothers
  | case3 progress hlevels error hstep =>
      obtain ⟨next, hnext, -⟩ := hready.step hlevels
      rw [hnext] at hstep
      cases hstep

end Ready

end Progress
end Tree
end MessagePack
