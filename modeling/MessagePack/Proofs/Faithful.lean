import Mathlib.Data.List.Nodup
import MessagePack.Proofs.Paging
import MessagePack.Proofs.Trace

/-!
A parsed tree is the image of its bytes. Its nodes are a tree in the arena, no two of them share a
slot, and in preorder they are what the headers announce from left to right.
-/

namespace MessagePack.Tree

def childCount (tree : Tree) (id : NodeId) : Nat :=
  (tree.tagAt id).childCount?.getD 0

/-- The node so many compounds below the root. -/
inductive At (tree : Tree) : Nat → NodeId → Prop
  | root : At tree 0 tree.root
  | child {n : Nat} {id : NodeId} {k : Nat} (hparent : At tree n id) (hk : k < tree.childCount id) :
      At tree (n + 1) (tree.child id k)

/-- The tree shows what its input says, as these options have it. -/
structure Faithful (options : TagOptions) (tree : Tree) : Prop where
  nodup : tree.preorder.Nodup
  length : tree.preorder.length = tree.nodeCount
  mem_iff : ∀ id, id ∈ tree.preorder ↔ ∃ n, tree.At n id
  root : ∀ n id k, tree.At n id → k < tree.childCount id → tree.child id k ≠ tree.root
  parent : ∀ n id, tree.At n id → id ≠ tree.root → ∃! place : NodeId × Nat,
    (∃ m, tree.At m place.1) ∧ place.2 < tree.childCount place.1 ∧
      tree.child place.1 place.2 = id
  slot : ∀ n id, tree.At n id → id.page < UInt32.size ∧ id.index < UInt32.size
  /-- Children are consecutive slots of one page. -/
  run : ∀ n id, tree.At n id → 0 < tree.childCount id → ∃ (first : NodeId) (page : Page),
    tree.arena.pages[first.page]? = some page ∧
      first.index + tree.childCount id ≤ page.nodes.size ∧ page.nodes.size < UInt32.size ∧
        ∀ k, tree.child id k = first.offset k
  series : Header.Series options 0 tree.input.toList
    (tree.preorder.map fun id => (tree.tagAt id, (tree.arena.get id).start))
  payload : ∀ n id length, tree.At n id → (tree.tagAt id).payloadLength? = some length →
    ∃ before header payload behind,
      tree.input.toList = before ++ (header ++ (payload ++ behind)) ∧
        Header.decode options (header ++ (payload ++ behind)) =
          .ok (tree.tagAt id, header.length) ∧
          (tree.arena.get id).start = before.length + header.length ∧
            payload.length = length ∧ tree.payload? id = some payload
  size : ∀ last, tree.preorder.getLast? = some last →
    (tree.arena.get last).start + (tree.tagAt last).payloadLength?.getD 0 = tree.size
  depth_le : ∀ n id, tree.At n id → (tree.tagAt id).childCount? ≠ none → n + 1 ≤ tree.depth
  depth_reached : tree.depth = 0 ∨
    ∃ n id, tree.At n id ∧ (tree.tagAt id).childCount? ≠ none ∧ n + 1 = tree.depth
  nodeCount_le : tree.nodeCount ≤ tree.size

/-- What the history of a parse says about its tree. -/
structure Recorded (options : TagOptions) (limit : Nat) (tree : Tree) (trace : List Filled) :
    Prop where
  arena : tree.arena.Sized limit
  pages : tree.arena.pages.size ≤ limit + 1
  held : ∀ filled ∈ trace, tree.arena.slot? filled.id = some filled.node
  nodup : (trace.map Filled.id).Nodup
  settled : (trace.map Filled.slot).Perm ((tree.root, 1) :: trace.flatMap Filled.below)
  sound : ∀ filled ∈ trace, ∃ n, filled.depth = n + 1 ∧ tree.At n filled.id
  preorder : tree.preorder = trace.map Filled.id
  nodeCount : tree.nodeCount = trace.length
  series : Header.Series options 0 tree.input.toList
    (trace.map fun filled => (filled.node.tag, filled.node.start))
  depth_le : ∀ filled ∈ trace, filled.node.tag.childCount? ≠ none → filled.depth ≤ tree.depth
  depth_reached : tree.depth = 0 ∨
    ∃ filled ∈ trace, filled.node.tag.childCount? ≠ none ∧ filled.depth = tree.depth

section Recorded

variable {options : TagOptions} {limit n k : Nat} {tree : Tree} {trace : List Filled}
  {filled : Filled} {id : NodeId}

namespace Recorded

theorem get (hrecorded : Recorded options limit tree trace) (hmember : filled ∈ trace) :
    tree.arena.get filled.id = filled.node :=
  Arena.get_of_slot (hrecorded.held filled hmember)

theorem tagAt (hrecorded : Recorded options limit tree trace) (hmember : filled ∈ trace) :
    tree.tagAt filled.id = filled.node.tag := by
  rw [Tree.tagAt, hrecorded.get hmember]

theorem child_below (hrecorded : Recorded options limit tree trace) (hmember : filled ∈ trace)
    (hk : k < tree.childCount filled.id) :
    (tree.child filled.id k, filled.depth + 1) ∈ filled.below := by
  rw [childCount, hrecorded.tagAt hmember] at hk
  refine List.mem_map.mpr ⟨k, List.mem_range.mpr hk, ?_⟩
  rw [child, hrecorded.get hmember]

/-- The places in the tree are the slots that have been filled. -/
theorem at_iff (hrecorded : Recorded options limit tree trace) :
    tree.At n id ↔ (id, n + 1) ∈ trace.map Filled.slot := by
  constructor
  · intro hat
    induction hat with
    | root => exact hrecorded.settled.mem_iff.mpr (.head _)
    | @child n parent k _ hk ih =>
        obtain ⟨filled, hmember, hslot⟩ := List.mem_map.mp ih
        obtain ⟨rfl, hdepth⟩ : filled.id = parent ∧ filled.depth = n + 1 := Prod.mk.inj hslot
        refine hrecorded.settled.mem_iff.mpr (.tail _ (List.mem_flatMap.mpr ⟨filled, hmember, ?_⟩))
        rw [← hdepth]
        exact hrecorded.child_below hmember hk
  · intro hslot
    obtain ⟨filled, hmember, hsame⟩ := List.mem_map.mp hslot
    obtain ⟨rfl, hdepth⟩ : filled.id = id ∧ filled.depth = n + 1 := Prod.mk.inj hsame
    obtain ⟨m, hm, hat⟩ := hrecorded.sound filled hmember
    obtain rfl : m = n := by omega
    exact hat

theorem of_at (hrecorded : Recorded options limit tree trace) (hat : tree.At n id) :
    ∃ filled ∈ trace, filled.id = id ∧ filled.depth = n + 1 := by
  obtain ⟨filled, hmember, hslot⟩ := List.mem_map.mp (hrecorded.at_iff.mp hat)
  exact ⟨filled, hmember, Prod.mk.inj hslot⟩

theorem mem_iff (hrecorded : Recorded options limit tree trace) :
    id ∈ tree.preorder ↔ ∃ n, tree.At n id := by
  rw [hrecorded.preorder]
  constructor
  · intro hmember
    obtain ⟨filled, hfilled, rfl⟩ := List.mem_map.mp hmember
    obtain ⟨n, -, hat⟩ := hrecorded.sound filled hfilled
    exact ⟨n, hat⟩
  · rintro ⟨n, hat⟩
    obtain ⟨filled, hfilled, rfl, -⟩ := hrecorded.of_at hat
    exact List.mem_map.mpr ⟨filled, hfilled, rfl⟩

/-- Every node is the root or a child, and none is both or a child twice. -/
theorem family (hrecorded : Recorded options limit tree trace) :
    tree.preorder.Perm (tree.root :: tree.preorder.flatMap tree.childrenOf) := by
  have hids := hrecorded.settled.map Prod.fst
  have hbelow : (trace.flatMap Filled.below).map Prod.fst =
      (trace.map Filled.id).flatMap tree.childrenOf := by
    rw [List.map_flatMap, List.flatMap_map]
    refine List.flatMap_congr fun filled hmember => ?_
    exact Progress.Trace.below_ids (hrecorded.get hmember)
  rw [List.map_cons, hbelow, List.map_map, ← hrecorded.preorder] at hids
  have hslots : trace.map (Prod.fst ∘ Filled.slot) = tree.preorder := hrecorded.preorder.symm
  rwa [hslots] at hids

theorem nodup_children (hrecorded : Recorded options limit tree trace) :
    tree.root ∉ tree.preorder.flatMap tree.childrenOf ∧
      (tree.preorder.flatMap tree.childrenOf).Nodup := by
  have hnodup := hrecorded.nodup
  rw [← hrecorded.preorder] at hnodup
  exact List.nodup_cons.mp (hrecorded.family.nodup_iff.mp hnodup)

/-- Where a child can be: a node and a position below it. -/
def places (tree : Tree) : List (NodeId × Nat) :=
  tree.preorder.flatMap fun id => (List.range (tree.childCount id)).map fun k => (id, k)

theorem mem_places {place : NodeId × Nat} :
    place ∈ places tree ↔ place.1 ∈ tree.preorder ∧ place.2 < tree.childCount place.1 := by
  obtain ⟨id, k⟩ := place
  simp only [places, List.mem_flatMap, List.mem_map, List.mem_range, Prod.mk.injEq]
  constructor
  · rintro ⟨parent, hparent, position, hposition, rfl, rfl⟩
    exact ⟨hparent, hposition⟩
  · rintro ⟨hparent, hposition⟩
    exact ⟨id, hparent, k, hposition, rfl, rfl⟩

theorem map_places :
    (places tree).map (fun place => tree.child place.1 place.2) =
      tree.preorder.flatMap tree.childrenOf := by
  rw [places, List.map_flatMap]
  refine List.flatMap_congr fun id _ => ?_
  rw [List.map_map]
  rfl

theorem parent (hrecorded : Recorded options limit tree trace) (hid : id ∈ tree.preorder)
    (hroot : id ≠ tree.root) : ∃! place : NodeId × Nat, place ∈ places tree ∧
      tree.child place.1 place.2 = id := by
  have hchild : id ∈ tree.preorder.flatMap tree.childrenOf := by
    rcases List.mem_cons.mp (hrecorded.family.mem_iff.mp hid) with hsame | hchild
    · exact absurd hsame hroot
    · exact hchild
  obtain ⟨-, hnodup⟩ := hrecorded.nodup_children
  rw [← map_places] at hchild hnodup
  obtain ⟨place, hplace, hsame⟩ := List.mem_map.mp hchild
  refine ⟨place, ⟨hplace, hsame⟩, ?_⟩
  rintro other ⟨hother, hchild⟩
  exact List.inj_on_of_nodup_map hnodup hother hplace (hchild.trans hsame.symm)

theorem slot (hrecorded : Recorded options limit tree trace) (hlimit : limit < UInt32.size)
    (hat : tree.At n id) : id.page < UInt32.size ∧ id.index < UInt32.size := by
  obtain ⟨filled, hmember, rfl, -⟩ := hrecorded.of_at hat
  obtain ⟨hpage, page, -, hindex, hsize⟩ := hrecorded.arena.slot (hrecorded.held filled hmember)
  have hpages := hrecorded.pages
  omega

theorem run (hrecorded : Recorded options limit tree trace) (hlimit : limit < UInt32.size)
    (hat : tree.At n id) (hsome : 0 < tree.childCount id) : ∃ (first : NodeId) (page : Page),
      tree.arena.pages[first.page]? = some page ∧
        first.index + tree.childCount id ≤ page.nodes.size ∧ page.nodes.size < UInt32.size ∧
          ∀ k, tree.child id k = first.offset k := by
  have hlast : tree.childCount id - 1 < tree.childCount id := Nat.sub_lt hsome Nat.one_pos
  obtain ⟨filled, hmember, hid, -⟩ := hrecorded.of_at (hat.child hlast)
  have hslot := hrecorded.held filled hmember
  rw [hid] at hslot
  obtain ⟨-, page, hpage, hindex, hsize⟩ := hrecorded.arena.slot hslot
  refine ⟨(tree.arena.get id).children?.getD id, page, hpage, ?_, by omega, fun k => rfl⟩
  simp only [child, NodeId.offset] at hindex
  omega

/-- The series of headers is that of the nodes. -/
theorem series_preorder (hrecorded : Recorded options limit tree trace) :
    (trace.map fun filled => (filled.node.tag, filled.node.start)) =
      tree.preorder.map fun id => (tree.tagAt id, (tree.arena.get id).start) := by
  rw [hrecorded.preorder, List.map_map]
  refine List.map_congr_left fun filled hmember => ?_
  simp only [Function.comp, Tree.tagAt, hrecorded.get hmember]

theorem payload (hrecorded : Recorded options limit tree trace) {length : Nat}
    (hat : tree.At n id) (hlength : (tree.tagAt id).payloadLength? = some length) :
    ∃ before header payload behind,
      tree.input.toList = before ++ (header ++ (payload ++ behind)) ∧
        Header.decode options (header ++ (payload ++ behind)) =
          .ok (tree.tagAt id, header.length) ∧
          (tree.arena.get id).start = before.length + header.length ∧
            payload.length = length ∧ tree.payload? id = some payload := by
  have hmember : (tree.tagAt id, (tree.arena.get id).start) ∈
      trace.map fun filled => (filled.node.tag, filled.node.start) := by
    rw [hrecorded.series_preorder]
    exact List.mem_map.mpr ⟨id, hrecorded.mem_iff.mpr ⟨n, hat⟩, rfl⟩
  obtain ⟨before, header, payload, behind, htext, hdecode, hpayload, hstart⟩ :=
    hrecorded.series.split hmember
  rw [hlength, Option.getD_some] at hpayload
  rw [Nat.zero_add] at hstart
  have hinput : tree.input = (before ++ (header ++ (payload ++ behind))).toArray := by
    rw [← htext]
  refine ⟨before, header, payload, behind, htext, hdecode, hstart, hpayload,
    payload_eq hinput hlength ?_⟩
  rw [hstart, ← List.drop_drop, List.drop_left, List.drop_left, ← hpayload, List.take_left]

theorem size (hrecorded : Recorded options limit tree trace) {last : NodeId}
    (hlast : tree.preorder.getLast? = some last) :
    (tree.arena.get last).start + (tree.tagAt last).payloadLength?.getD 0 = tree.size := by
  have hseries := hrecorded.series
  rw [hrecorded.series_preorder] at hseries
  have hfound : (tree.preorder.map fun id => (tree.tagAt id, (tree.arena.get id).start)).getLast? =
      some (tree.tagAt last, (tree.arena.get last).start) := by
    rw [List.getLast?_map, hlast]
    rfl
  rw [hseries.last hfound, Nat.zero_add, Array.length_toList]
  rfl

theorem faithful (hrecorded : Recorded options limit tree trace) (hlimit : limit < UInt32.size) :
    tree.Faithful options where
  nodup := by
    rw [hrecorded.preorder]
    exact hrecorded.nodup
  length := by
    rw [hrecorded.preorder, List.length_map, hrecorded.nodeCount]
  mem_iff := fun id => hrecorded.mem_iff
  root := by
    intro n id k hat hk hroot
    have hchild : tree.root ∈ tree.childrenOf id :=
      List.mem_map.mpr ⟨k, List.mem_range.mpr hk, hroot⟩
    exact hrecorded.nodup_children.1
      (List.mem_flatMap.mpr ⟨id, hrecorded.mem_iff.mpr ⟨n, hat⟩, hchild⟩)
  parent := by
    intro n id hat hroot
    obtain ⟨place, ⟨hplace, hsame⟩, hunique⟩ :=
      hrecorded.parent (hrecorded.mem_iff.mpr ⟨n, hat⟩) hroot
    obtain ⟨hparent, hk⟩ := mem_places.mp hplace
    refine ⟨place, ⟨hrecorded.mem_iff.mp hparent, hk, hsame⟩, ?_⟩
    rintro other ⟨hother, hposition, hchild⟩
    exact hunique other ⟨mem_places.mpr ⟨hrecorded.mem_iff.mpr hother, hposition⟩, hchild⟩
  slot := fun n id hat => hrecorded.slot hlimit hat
  run := fun n id hat hsome => hrecorded.run hlimit hat hsome
  series := by
    rw [← hrecorded.series_preorder]
    exact hrecorded.series
  payload := fun n id length hat hlength => hrecorded.payload hat hlength
  size := fun last hlast => hrecorded.size hlast
  depth_le := by
    intro n id hat hcompound
    obtain ⟨filled, hmember, rfl, hdepth⟩ := hrecorded.of_at hat
    rw [hrecorded.tagAt hmember] at hcompound
    rw [← hdepth]
    exact hrecorded.depth_le filled hmember hcompound
  depth_reached := by
    rcases hrecorded.depth_reached with hzero | ⟨filled, hmember, hcompound, hdepth⟩
    · exact .inl hzero
    · obtain ⟨n, hn, hat⟩ := hrecorded.sound filled hmember
      refine .inr ⟨n, filled.id, hat, ?_, hn.symm.trans hdepth⟩
      rw [hrecorded.tagAt hmember]
      exact hcompound
  nodeCount_le := by
    have hlength := hrecorded.series.length_le
    rw [List.length_map, Array.length_toList] at hlength
    rw [hrecorded.nodeCount]
    exact hlength

end Recorded
end Recorded

namespace Progress

variable {options : TagOptions} {limits : Limits} {config : Config} {bytes rest : Bytes}
  {maxDepth limit : Nat} {tree : Tree} {root : NodeId} {start : Progress}

theorem contained_of_initial (hinitial : initial config bytes = .ok (root, start))
    (hpage : (Arena.ofPageBytes config.nodePageSize).pageNodes ≤ limit)
    (hbytes : bytes.length ≤ limit) : Contained limit start := by
  obtain ⟨-, arena, hallocate, -, rfl⟩ := initial_eq_ok hinitial
  have hone : 1 ≤ limit := Nat.le_trans (Nat.le_max_left 1 _) hpage
  have hsized := Arena.sized_ofPageBytes hpage
  obtain ⟨-, hgrown⟩ := Arena.size_pages_allocate Nat.one_pos hallocate
  have hnone : (Arena.ofPageBytes config.nodePageSize).pages.size = 0 := rfl
  refine ⟨hsized.allocate Nat.one_pos hone hallocate, ?_, fun level hlevel => ?_⟩
  · simp only [Progress.start]
    omega
  · rw [List.mem_singleton.mp hlevel]
    exact hsized.run Nat.one_pos hone hallocate

theorem tidy_of_initial (hinitial : initial config bytes = .ok (root, start)) :
    Tidy start.ids start.arena := by
  obtain ⟨arena, rfl, -, -, hroot⟩ := start_of_initial hinitial
  refine ⟨List.pairwise_singleton _ _, fun id hid => ?_⟩
  rw [List.mem_singleton.mp hid]
  exact ⟨_, hroot⟩

/-- What is filled below a place in the tree has its place there too. -/
theorem Trace.sound {progress done : Progress} {trace : List Filled}
    (htrace : Trace options progress done trace)
    (hheld : ∀ filled ∈ trace, tree.arena.get filled.id = filled.node)
    (hslots : ∀ slot ∈ progress.slots, ∃ n, slot.2 = n + 1 ∧ tree.At n slot.1) :
    ∀ filled ∈ trace, ∃ n, filled.depth = n + 1 ∧ tree.At n filled.id := by
  induction htrace with
  | full => exact fun _ hmember => absurd hmember List.not_mem_nil
  | leave hsame _ ih => exact ih hheld (hsame ▸ hslots)
  | @fill progress after done levels id depth header payload node trace hfirst hfills _ ih =>
      rw [hfirst] at hslots
      obtain ⟨n, rfl, hat⟩ := hslots (id, depth) (.head _)
      have hnode : tree.arena.get id = node := hheld _ (.head _)
      have hafter : ∀ slot ∈ after.slots, ∃ n, slot.2 = n + 1 ∧ tree.At n slot.1 := by
        intro slot hslot
        rw [hfills.slots, List.mem_append] at hslot
        rcases hslot with hchild | houter
        · obtain ⟨k, hk, rfl⟩ := List.mem_map.mp hchild
          have hbelow : k < tree.childCount id := by
            rw [childCount, Tree.tagAt, hnode]
            exact List.mem_range.mp hk
          have hplace := hat.child hbelow
          rw [child, hnode] at hplace
          exact ⟨n + 1, rfl, hplace⟩
        · exact hslots slot (.tail _ houter)
      intro filled hmember
      rcases List.mem_cons.mp hmember with rfl | hlater
      · exact ⟨n, rfl, hat⟩
      · exact ih (fun other hother => hheld other (.tail _ hother)) hafter filled hlater

end Progress

variable {config : Config} {maxDepth limit : Nat} {bytes rest : Bytes} {tree : Tree}

theorem parseFront_recorded (hparse : parseFront config maxDepth bytes = .ok (tree, rest))
    (hpage : (Arena.ofPageBytes config.nodePageSize).pageNodes ≤ limit)
    (hbytes : bytes.length ≤ limit) :
    bytes = tree.input.toList ++ rest ∧
      ∃ trace, Recorded config.tagOptions limit tree trace := by
  obtain ⟨-, -, root, start, done, hinitial, hrun, rfl, rfl⟩ := parseFront_eq_ok hparse
  obtain ⟨trace, htrace⟩ := Progress.run_trace hrun
  have htidy := Progress.tidy_of_initial hinitial
  have hdone := (Progress.run_reaches .start hrun).contained
    (Progress.contained_of_initial hinitial hpage hbytes)
  have hheld : ∀ filled ∈ trace, done.arena.slot? filled.id = some filled.node :=
    fun _ hmember => htrace.held htidy hmember
  obtain ⟨arena, rfl, hone, -, -⟩ := Progress.start_of_initial hinitial
  have hslots : (Progress.start root arena bytes).slots = [(root, 1)] := rfl
  have hbegun : (Progress.start root arena bytes).arena.count = 1 := hone
  have hcount := htrace.count
  rw [hslots, hbegun, List.length_singleton] at hcount
  obtain ⟨text, hrest, hposition, hseries⟩ := htrace.series
  have hall : bytes = text ++ done.rest := hrest
  have htext : bytes.take done.position = text := by
    rw [hposition, hall]
    simp only [Progress.start, Nat.zero_add, List.take_left]
  have hpages := hdone.pages
  refine ⟨by rw [htext]; exact hall, trace, {
    arena := hdone.arena
    pages := by simp only; omega
    held := hheld
    nodup := htrace.nodup htidy
    settled := htrace.settled
    sound := ?_
    preorder := ?_
    nodeCount := ?_
    series := ?_
    depth_le := fun filled hmember hcompound => htrace.depth_le hmember hcompound
    depth_reached := ?_ }⟩
  · refine htrace.sound (fun filled hmember => Arena.get_of_slot (hheld filled hmember)) ?_
    intro slot hslot
    rw [hslots] at hslot
    rw [List.mem_singleton.mp hslot]
    exact ⟨0, rfl, .root⟩
  · refine htrace.visit (fun filled hmember => Arena.get_of_slot (hheld filled hmember)) ?_ #[]
    show trace.length ≤ done.arena.count
    omega
  · show done.arena.count = trace.length
    omega
  · rw [htext]
    exact hseries
  · exact htrace.deepest_reached

/-- A tree is faithful to the bytes it is parsed from. On the way to it no id is too large for 32
bits, nor is the one behind a run of slots. -/
theorem parseWithin_faithful (hpage : config.nodePageSize ≤ UInt32.size)
    (hbytes : bytes.length < UInt32.size) (hparse : parseWithin config maxDepth bytes = .ok tree) :
    tree.input = bytes.toArray ∧ tree.Faithful config.tagOptions ∧
      ∀ progress, Progress.UnderWay config maxDepth bytes progress →
        ∀ level ∈ progress.levels, level.next.page < UInt32.size ∧
          level.next.index + level.left < UInt32.size := by
  have hfront := parseFront_of_parseWithin hparse
  have hnodes : (Arena.ofPageBytes config.nodePageSize).pageNodes < UInt32.size := by
    simp only [Arena.ofPageBytes, Arena.nodeSize, UInt32.size] at hpage ⊢
    omega
  obtain ⟨limit, hlimit, hregular, hfits⟩ : ∃ limit < UInt32.size,
      (Arena.ofPageBytes config.nodePageSize).pageNodes ≤ limit ∧ bytes.length ≤ limit :=
    ⟨UInt32.size - 1, by decide, by omega, by omega⟩
  obtain ⟨hinput, trace, hrecorded⟩ := parseFront_recorded hfront hregular hfits
  refine ⟨?_, hrecorded.faithful hlimit, ?_⟩
  · rw [hinput, List.append_nil]
  · rintro progress ⟨root, start, hinitial, hreaches⟩ level hlevel
    have hcontained :=
      hreaches.contained (Progress.contained_of_initial hinitial hregular hfits)
    obtain ⟨hinside, hindex⟩ := hcontained.levels level hlevel
    have hpages := hcontained.pages
    omega

/-- An array of a text and a map that has an empty array in it, one node a page. -/
theorem parseWithin_faithful_nested :
    ∃ tree, parseWithin { nodePageSize := 40 } 3 [0x92, 0xa1, 0x61, 0x81, 0x01, 0x90] = .ok tree ∧
      tree.Faithful {} := by
  let entry : List Message := [.node [0x01] (.uint 1) [] [], .node [0x90] (.array 0) [] []]
  let items : List Message := [.node [0xa1] (.str 1) [0x61] [], .node [0x81] (.map 1) [] entry]
  have hentry : ∀ child ∈ entry, child.Complete {} := by
    intro child hchild
    simp only [entry, List.mem_cons, List.not_mem_nil, or_false] at hchild
    rcases hchild with rfl | rfl <;> exact .node rfl rfl rfl fun _ hnone => by cases hnone
  have hitems : ∀ child ∈ items, child.Complete {} := by
    intro child hchild
    simp only [items, List.mem_cons, List.not_mem_nil, or_false] at hchild
    rcases hchild with rfl | rfl
    · exact .node rfl rfl rfl fun _ hnone => by cases hnone
    · exact .node rfl rfl rfl hentry
  have hcomplete : (Message.node [0x92] (.array 2) [] items).Complete {} :=
    .node rfl rfl rfl hitems
  obtain ⟨tree, hparse, -⟩ := parseWithin_ok (show Config.Valid { nodePageSize := 40 } by decide)
    rfl (by decide) hcomplete (show 3 ≤ 3 by decide) (by decide) (by decide)
  exact ⟨tree, hparse, (parseWithin_faithful (by decide) (by decide) hparse).2.1⟩

end MessagePack.Tree
