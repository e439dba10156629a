import MessagePack.Proofs.Listing

/-!
Nodes as parts of a message. A node of a parsed tree shows the part of the message that is read
into it, with all that is below.
-/

namespace MessagePack

theorem length_paired {list : List α} {n : Nat} (hlength : list.length = 2 * n) :
    (paired list).length = n := by
  induction n generalizing list with
  | zero =>
      rw [List.eq_nil_of_length_eq_zero hlength]
      rfl
  | succ n ih =>
      match list, hlength with
      | [_], hlength =>
          simp only [List.length_cons, List.length_nil] at hlength
          omega
      | _ :: _ :: list, hlength =>
          simp only [List.length_cons] at hlength
          rw [paired, List.length_cons, ih (by omega)]

theorem getElem?_paired {list : List α} {k : Nat} {key value : α}
    (hpair : (paired list)[k]? = some (key, value)) :
    list[2 * k]? = some key ∧ list[2 * k + 1]? = some value := by
  fun_induction paired list generalizing k with
  | case1 first second rest ih =>
      cases k with
      | zero =>
          cases hpair
          exact ⟨rfl, rfl⟩
      | succ k => exact ih hpair
  | case2 => cases hpair

namespace Message

/-- The parts of a message, each so many compounds below the whole. -/
inductive Part (whole : Message) : Nat → Message → Prop
  | whole : Part whole 0 whole
  | child {n : Nat} {header payload : Bytes} {tag : Tag} {children : List Message}
      {child : Message} (hparent : Part whole n (.node header tag payload children))
      (hchild : child ∈ children) : Part whole (n + 1) child

variable {options : TagOptions} {whole part child : Message} {messages : List Message} {n : Nat}

theorem Part.complete (hpart : whole.Part n part) (hwhole : whole.Complete options) :
    part.Complete options := by
  induction hpart with
  | whole => exact hwhole
  | child _ hchild ih =>
      cases ih with
      | node _ _ _ hchildren => exact hchildren _ hchild

theorem bytes_infix_text (hmember : child ∈ messages) : child.bytes <:+: text messages := by
  induction messages with
  | nil => exact absurd hmember List.not_mem_nil
  | cons first messages ih =>
      rcases List.mem_cons.mp hmember with rfl | hmember
      · exact (List.prefix_append _ _).isInfix
      · exact (ih hmember).trans (List.suffix_append _ _).isInfix

theorem nodes_pos (message : Message) : 0 < message.nodes := by
  cases message
  rw [nodes]
  exact Nat.succ_pos _

theorem nodes_le_nodesOf (hmember : child ∈ messages) : child.nodes ≤ nodesOf messages := by
  induction messages with
  | nil => exact absurd hmember List.not_mem_nil
  | cons first messages ih =>
      rw [nodesOf]
      rcases List.mem_cons.mp hmember with rfl | hmember
      · exact Nat.le_add_right _ _
      · exact Nat.le_trans (ih hmember) (Nat.le_add_left _ _)

theorem Part.nodes_le (hpart : whole.Part n part) : part.nodes ≤ whole.nodes := by
  induction hpart with
  | whole => exact Nat.le_refl _
  | child _ hchild ih =>
      rw [nodes] at ih
      have hless := nodes_le_nodesOf hchild
      omega

theorem Part.depth_le (hpart : whole.Part n part) (hwhole : whole.Complete options) :
    n + part.depth ≤ whole.depth := by
  induction hpart with
  | whole => exact Nat.le_of_eq (Nat.zero_add _)
  | @child n header payload tag children child hparent hchild ih =>
      cases hparent.complete hwhole with
      | node _ _ hcount _ =>
          have hopens : tag.childCount? ≠ none := by
            intro hnone
            rw [hnone] at hcount
            rw [List.eq_nil_of_length_eq_zero hcount] at hchild
            exact absurd hchild List.not_mem_nil
          rw [depth_node hopens] at ih
          have hdepth := le_depths hchild
          omega

mutual

/-- The tags of the parts with their payloads, in the order of the bytes. -/
def outline : Message → List (Tag × Option Bytes)
  | .node _ tag payload children =>
      (tag, tag.payloadLength?.map fun _ => payload) :: outlines children

def outlines : List Message → List (Tag × Option Bytes)
  | [] => []
  | message :: messages => outline message ++ outlines messages

end

theorem listing_text
    (hlisting : ∀ message ∈ messages, Header.Listing options message.bytes message.outline) :
    Header.Listing options (text messages) (outlines messages) := by
  induction messages with
  | nil => exact .done
  | cons message messages ih =>
      have hrest := ih fun other hother => hlisting other (.tail _ hother)
      exact (hlisting message (.head _)).append hrest

theorem Complete.listing (hcomplete : whole.Complete options) :
    Header.Listing options whole.bytes whole.outline := by
  induction hcomplete with
  | node hheader hpayload _ _ ih =>
      rw [bytes, outline, List.append_assoc]
      exact .next hheader hpayload (listing_text ih)

mutual

theorem length_outline : (message : Message) → message.outline.length = message.nodes
  | .node _ _ _ children => by
      rw [outline, nodes, List.length_cons, length_outlines children]

theorem length_outlines : (messages : List Message) → (outlines messages).length = nodesOf messages
  | [] => rfl
  | message :: messages => by
      rw [outlines, nodesOf, List.length_append, length_outline message, length_outlines messages]

end

end Message

namespace Tree

/-- The node has the tag and the payload of the message, and children that show its own. -/
inductive Shows (tree : Tree) : Message → NodeId → Prop
  | node {header payload : Bytes} {tag : Tag} {children : List Message} {id : NodeId}
      (htag : tree.tagAt id = tag)
      (hpayload : tree.payload? id = tag.payloadLength?.map fun _ => payload)
      (hcount : tree.childCount id = children.length)
      (hchildren : ∀ (k : Nat) (hk : k < children.length),
        Shows tree children[k] (tree.child id k)) :
      Shows tree (.node header tag payload children) id

variable {config : Config} {maxDepth n : Nat} {options : TagOptions} {bytes : Bytes} {tree : Tree}
  {message whole : Message} {id : NodeId}

theorem Shown.shows (hinput : tree.input = bytes.toArray) (hcomplete : message.Complete options)
    (hshown : Shown bytes tree.arena message id) : tree.Shows message id := by
  induction hshown with
  | @node header payload children id data hdata hpayload _ ih =>
      cases hcomplete with
      | node _ hlength hcount hinside =>
          have htag : tree.tagAt id = data.tag := by rw [tagAt, hdata]
          refine .node htag ?_ ?_ fun k hk => ?_
          · cases hannounced : data.tag.payloadLength? with
            | none => rw [payload?, hdata, hannounced, Option.map_none, Option.map_none]
            | some length =>
                rw [hannounced, Option.getD_some] at hlength
                refine payload_eq hinput (by rw [htag, hannounced]) ?_
                rw [hdata, ← hlength, hpayload]
          · rw [childCount, htag, hcount]
          · rw [child, hdata]
            exact ih k hk (hinside _ (List.getElem_mem hk))

/-- Where the whole is shown at the root, every place shows a part. -/
theorem Shows.part_of_at (hroot : tree.Shows whole tree.root) (hat : tree.At n id) :
    ∃ part, whole.Part n part ∧ tree.Shows part id := by
  induction hat with
  | root => exact ⟨whole, .whole, hroot⟩
  | @child n id k _ hk ih =>
      obtain ⟨parent, hparent, hshows⟩ := ih
      cases hshows with
      | node _ _ hcount hchildren =>
          rw [hcount] at hk
          exact ⟨_, hparent.child (List.getElem_mem hk), hchildren k hk⟩

/-- A tree is one of a complete message, as deep as it. -/
theorem shows_of_parseWithin (hparse : parseWithin config maxDepth bytes = .ok tree) :
    ∃ whole : Message, whole.Complete config.tagOptions ∧ whole.bytes = bytes ∧
      tree.Shows whole tree.root ∧ tree.depth = whole.depth := by
  have hfront := parseFront_of_parseWithin hparse
  obtain ⟨hinput, trace, hrecorded⟩ := parseFront_recorded hfront
    (Nat.le_max_left _ bytes.length) (Nat.le_max_right _ _)
  rw [List.append_nil] at hinput
  obtain ⟨-, -, root, start, done, hinitial, hrun, hrest, htree⟩ := parseFront_eq_ok hfront
  obtain ⟨arena, rfl, -, -, hroot⟩ := Progress.start_of_initial hinitial
  obtain ⟨whole, hcomplete, hbytes, -, hshown, hdepth⟩ := run_start_eq_ok ⟨_, hroot⟩ hrun
  rw [← hrest, List.append_nil] at hbytes
  have hshows : tree.Shows whole tree.root := by
    have hbuffer : tree.input = bytes.toArray := by rw [hinput]
    refine Shown.shows hbuffer hcomplete ?_
    rw [htree]
    exact hshown
  refine ⟨whole, hcomplete, hbytes.symm, hshows, Nat.le_antisymm ?_ (by rw [htree]; exact hdepth)⟩
  rcases hrecorded.depth_reached with hzero | ⟨filled, hmember, hopens, hreached⟩
  · rw [hzero]
    exact Nat.zero_le _
  · -- the deepest compound is a part, with one more level of its own
    obtain ⟨n, hlevel, hat⟩ := hrecorded.sound filled hmember
    obtain ⟨part, hpart, hplace⟩ := hshows.part_of_at hat
    have hbelow := hpart.depth_le hcomplete
    rw [← hrecorded.tagAt hmember] at hopens
    cases hplace with
    | node htag _ _ _ =>
        rw [Message.depth_node (htag ▸ hopens)] at hbelow
        omega

/-- The nodes in preorder are the parts in the order of the bytes. -/
theorem outline_of_parseWithin (hcomplete : message.Complete config.tagOptions)
    (hparse : parseWithin config maxDepth message.bytes = .ok tree) :
    tree.outline = message.outline :=
  (listing_of_parseWithin hparse).unique hcomplete.listing

theorem tags_of_parseWithin (hcomplete : message.Complete config.tagOptions)
    (hparse : parseWithin config maxDepth message.bytes = .ok tree) :
    tree.tags = message.outline.map Prod.fst := by
  rw [← outline_of_parseWithin hcomplete hparse, outline, List.map_map, tags]
  rfl

theorem nodeCount_of_parseWithin (hcomplete : message.Complete config.tagOptions)
    (hparse : parseWithin config maxDepth message.bytes = .ok tree) :
    tree.nodeCount = message.nodes := by
  obtain ⟨-, trace, hrecorded⟩ := parseFront_recorded (parseFront_of_parseWithin hparse)
    (Nat.le_max_left _ message.bytes.length) (Nat.le_max_right _ _)
  rw [hrecorded.nodeCount, ← message.length_outline, ← outline_of_parseWithin hcomplete hparse,
    outline, List.length_map, hrecorded.preorder, List.length_map]

end Tree
end MessagePack
