import Mathlib.Data.List.Forall2
import MessagePack.Proofs.Parts
import MessagePack.Proofs.Sticky
import MessagePack.Tree.Render

/-!
Renderings as texts of messages. What the renderer writes with a stack of its own is the text that
is defined by recursion on the message, whatever has been asked of the tree before.
-/

namespace MessagePack
namespace Tree

/-- The items of a compound between its brackets, on one line or each on a line of its own. -/
def Layout.enclose (level : Nat) (opening closing : String) : Layout → List String → String
  | _, [] => opening ++ closing
  | .compact, items => opening ++ String.intercalate ", " items ++ closing
  | .pretty, items =>
      opening ++ String.intercalate "," (items.map (indent (level + 1) ++ ·)) ++ indent level ++
        closing

end Tree

namespace Message

mutual

/-- The text of a message that stands so many levels deep. -/
def render (layout : Tree.Layout) (level : Nat) : Message → String
  | .node _ tag payload children =>
      match tag with
      | .array _ => layout.enclose level "[" "]" (renderAll layout (level + 1) children)
      | .map _ =>
          layout.enclose level "\x7b" "\x7d"
            ((paired (renderAll layout (level + 1) children)).map fun (key, value) =>
              key ++ ": " ++ value)
      | _ => Tree.scalarText tag payload

def renderAll (layout : Tree.Layout) (level : Nat) : List Message → List String
  | [] => []
  | message :: messages => render layout level message :: renderAll layout level messages

end

end Message

namespace Tree

/-- The pieces are written as this text in so many steps at most, whatever is pending behind. -/
def Writes (layout : Layout) (tree : Tree) (pieces : List Piece) (text : String)
    (bound : Nat) : Prop :=
  ∃ steps ≤ bound, ∀ fuel written pending,
    writePieces layout tree (steps + fuel) written (pieces ++ pending) =
      writePieces layout tree fuel (written ++ text) pending

/-- Each run of pieces is written as its text, with two steps to spare. -/
inductive WritesAll (layout : Layout) (tree : Tree) :
    List (List Piece) → List String → Nat → Prop
  | nil {bound : Nat} : WritesAll layout tree [] [] bound
  | cons {item : List Piece} {items : List (List Piece)} {text : String} {texts : List String}
      {bound limit : Nat} (hitem : Writes layout tree item text bound)
      (hitems : WritesAll layout tree items texts limit) :
      WritesAll layout tree (item :: items) (text :: texts) (bound + 2 + limit)

namespace Writes

variable {layout : Layout} {tree : Tree} {pieces first second : List Piece}
  {written behind opening : String} {bound limit level : Nat} {id : NodeId}

theorem none (layout : Layout) (tree : Tree) : Writes layout tree [] "" 0 := by
  refine ⟨0, Nat.le_refl 0, fun fuel written pending => ?_⟩
  rw [Nat.zero_add, String.append_empty, List.nil_append]

theorem text (layout : Layout) (tree : Tree) (text : String) :
    Writes layout tree [.text text] text 1 := by
  refine ⟨1, Nat.le_refl 1, fun fuel written pending => ?_⟩
  rw [Nat.add_comm, List.singleton_append, writePieces]

theorem newline (layout : Layout) (tree : Tree) (level : Nat) :
    Writes layout tree [.newline level] (indent level) 1 := by
  refine ⟨1, Nat.le_refl 1, fun fuel written pending => ?_⟩
  rw [Nat.add_comm, List.singleton_append, writePieces]

theorem append (hfirst : Writes layout tree first written bound)
    (hsecond : Writes layout tree second behind limit) :
    Writes layout tree (first ++ second) (written ++ behind) (bound + limit) := by
  obtain ⟨steps, hsteps, hfirst⟩ := hfirst
  obtain ⟨more, hmore, hsecond⟩ := hsecond
  refine ⟨steps + more, Nat.add_le_add hsteps hmore, fun fuel before pending => ?_⟩
  rw [List.append_assoc, Nat.add_assoc, hfirst, hsecond, String.append_assoc]

theorem mono (hwrites : Writes layout tree pieces written bound) (hbound : bound ≤ limit) :
    Writes layout tree pieces written limit := by
  obtain ⟨steps, hsteps, hwrites⟩ := hwrites
  exact ⟨steps, Nat.le_trans hsteps hbound, hwrites⟩

theorem scalar (hscalar : contents? layout tree id level = .none) :
    Writes layout tree [.node id level]
      (scalarText (tree.tagAt id) ((tree.payload? id).getD [])) 1 := by
  refine ⟨1, Nat.le_refl 1, fun fuel written pending => ?_⟩
  rw [Nat.add_comm, List.singleton_append, writePieces]
  simp only [hscalar]

theorem compound (hcontents : contents? layout tree id level = some (opening, pieces))
    (hpieces : Writes layout tree pieces written bound) :
    Writes layout tree [.node id level] (opening ++ written) (bound + 1) := by
  obtain ⟨steps, hsteps, hpieces⟩ := hpieces
  refine ⟨steps + 1, Nat.succ_le_succ hsteps, fun fuel before pending => ?_⟩
  rw [Nat.add_right_comm, List.singleton_append, writePieces]
  simp only [hcontents]
  rw [hpieces, String.append_assoc]

/-- With steps enough, nothing but the text is written. -/
theorem run (hwrites : Writes layout tree pieces written bound) (hbound : bound ≤ limit) :
    writePieces layout tree limit "" pieces = written := by
  obtain ⟨steps, hsteps, hwrites⟩ := hwrites
  obtain ⟨fuel, rfl⟩ := Nat.exists_eq_add_of_le (Nat.le_trans hsteps hbound)
  have hall := hwrites fuel "" []
  rw [List.append_nil, String.empty_append] at hall
  rw [hall]
  cases fuel <;> rw [writePieces]

end Writes

/-! Items between brackets. -/

section Bracketed

variable {layout : Layout} {tree : Tree} {items : List (List Piece)} {texts : List String}
  {text opening closing : String} {bound : Nat}

def Layout.breakText (level : Nat) : Layout → String
  | .compact => ""
  | .pretty => indent level

theorem Writes.lineBreak (layout : Layout) (tree : Tree) (level : Nat) :
    Writes layout tree (layout.lineBreak level) (layout.breakText level) 1 := by
  cases layout with
  | compact => exact (Writes.none .compact tree).mono (Nat.zero_le 1)
  | pretty => exact .newline .pretty tree level

theorem intercalate_cons (separator first : String) (others : List String) :
    String.intercalate separator (first :: others) =
      first ++ String.join (others.map (separator ++ ·)) := by
  induction others generalizing first with
  | nil => rw [String.intercalate_singleton, List.map_nil, String.join_nil, String.append_empty]
  | cons second others ih =>
      rw [String.intercalate_cons_cons, ih, List.map_cons, String.join_cons, String.append_assoc,
        String.append_assoc]

/-- What the items behind the first add to a text. -/
def Layout.joined (layout : Layout) (level : Nat) (texts : List String) : String :=
  String.join (texts.map fun text => layout.separator ++ (layout.breakText level ++ text))

theorem Layout.enclose_cons (layout : Layout) (level : Nat) :
    layout.enclose level opening closing (text :: texts) =
      opening ++ (layout.breakText (level + 1) ++ text ++ layout.joined (level + 1) texts ++
        layout.breakText level ++ closing) := by
  cases layout with
  | compact =>
      simp [enclose, breakText, joined, separator, intercalate_cons, String.append_assoc]
  | pretty =>
      simp only [enclose, List.map_cons, intercalate_cons, List.map_map, breakText, joined,
        separator, String.append_assoc, Function.comp_def]

theorem WritesAll.others (hitems : WritesAll layout tree items texts bound) (level : Nat) :
    Writes layout tree
      (items.flatMap fun item => .text layout.separator :: layout.lineBreak level ++ item)
      (layout.joined level texts) bound := by
  induction hitems with
  | nil => exact (Writes.none layout tree).mono (Nat.zero_le _)
  | @cons item items text texts bound limit hitem _ ih =>
      have hfirst := (Writes.text layout tree layout.separator).append
        ((Writes.lineBreak layout tree level).append hitem)
      have hall := (hfirst.append ih).mono (show _ ≤ bound + 2 + limit by omega)
      rw [Layout.joined, List.map_cons, String.join_cons]
      exact hall

/-- A compound takes a step for each of its brackets. -/
theorem WritesAll.enclosed {id : NodeId} {level : Nat}
    (hitems : WritesAll layout tree items texts bound)
    (hcontents : contents? layout tree id level =
      some (opening, layout.bracketed level closing items)) :
    Writes layout tree [.node id level] (layout.enclose level opening closing texts)
      (bound + 2) := by
  cases hitems with
  | nil =>
      have hempty : layout.enclose level opening closing [] = opening ++ closing := by
        cases layout <;> rfl
      rw [hempty]
      exact (Writes.compound hcontents (.text layout tree closing)).mono (Nat.le_add_left 2 _)
  | @cons item items text texts bound limit hitem hothers =>
      have hfirst := (Writes.lineBreak layout tree (level + 1)).append hitem
      have hall := hfirst.append (hothers.others (level + 1))
      have hend := (hall.append (.lineBreak layout tree level)).append (.text layout tree closing)
      rw [Layout.enclose_cons]
      exact (Writes.compound hcontents hend).mono (by omega)

end Bracketed

/-! The children of a node. -/

section Children

variable {layout : Layout} {tree : Tree} {ids : List NodeId} {messages : List Message}
  {level : Nat}

/-- A node is written as its message, in few steps for every node below it. -/
def WritesNode (layout : Layout) (tree : Tree) (level : Nat) (id : NodeId) (message : Message) :
    Prop :=
  Writes layout tree [.node id level] (message.render layout level) (4 * message.nodes - 2)

theorem writesAll_items (hchildren : List.Forall₂ (WritesNode layout tree level) ids messages) :
    WritesAll layout tree (ids.map fun id => [.node id level])
      (Message.renderAll layout level messages) (4 * Message.nodesOf messages) := by
  induction hchildren with
  | nil => exact .nil
  | @cons id message ids messages hfirst _ ih =>
      have hnodes := message.nodes_pos
      have hbound : 4 * Message.nodesOf (message :: messages) =
          4 * message.nodes - 2 + 2 + 4 * Message.nodesOf messages := by
        rw [Message.nodesOf]
        omega
      rw [hbound]
      exact .cons hfirst ih

theorem writesAll_pairs (hchildren : List.Forall₂ (WritesNode layout tree level) ids messages) :
    WritesAll layout tree
      ((paired ids).map fun (key, value) => [.node key level, .text ": ", .node value level])
      ((paired (Message.renderAll layout level messages)).map fun (key, value) =>
        key ++ ": " ++ value)
      (4 * Message.nodesOf messages) := by
  fun_induction paired ids generalizing messages with
  | case1 id other ids ih =>
      cases hchildren with
      | @cons _ key _ _ hkey hrest =>
          cases hrest with
          | @cons _ value _ messages hvalue hrest =>
              have hfirst := key.nodes_pos
              have hsecond := value.nodes_pos
              have hbound : 4 * Message.nodesOf (key :: value :: messages) =
                  4 * (key.nodes + value.nodes) - 2 + 2 + 4 * Message.nodesOf messages := by
                simp only [Message.nodesOf]
                omega
              have hpair := ((hkey.append (.text layout tree ": ")).append hvalue).mono
                (show _ ≤ 4 * (key.nodes + value.nodes) - 2 by omega)
              rw [hbound]
              exact .cons hpair (ih hrest)
  | case2 ids hshort =>
      cases hchildren with
      | nil => exact .nil
      | cons _ hrest =>
          cases hrest with
          | nil => exact .nil
          | cons => exact absurd rfl (hshort _ _ _)

end Children

section Parts

variable {config : Config} {maxDepth n : Nat} {options : TagOptions} {bytes : Bytes} {tree : Tree}
  {message : Message} {id : NodeId}

theorem forall₂_childrenOf {children : List Message} {related : NodeId → Message → Prop}
    (hcount : tree.childCount id = children.length)
    (hchildren : ∀ (k : Nat) (hk : k < children.length), related (tree.child id k) children[k]) :
    List.Forall₂ related (tree.childrenOf id) children := by
  have hlength : (tree.childrenOf id).length = children.length := by
    rw [childrenOf, List.length_map, List.length_range, ← hcount, childCount]
  refine List.forall₂_iff_get.mpr ⟨hlength, fun k hk hother => ?_⟩
  simpa [childrenOf] using hchildren k hother

theorem pairsOf_eq_paired {pairs : UInt32} (htag : tree.tagAt id = .map pairs) :
    tree.pairsOf id pairs.toNat = paired (tree.childrenOf id) := by
  rw [childrenOf, htag]
  exact (paired_map (tree.child id) pairs.toNat).symm

theorem Shows.writes (hcomplete : message.Complete options) (hshows : tree.Shows message id)
    (layout : Layout) (level : Nat) : WritesNode layout tree level id message := by
  induction hshows generalizing level with
  | @node header payload tag children id htag hpayload hcount hchildren ih =>
      obtain ⟨-, hlength, -, hinside⟩ := hcomplete
      have hbelow : List.Forall₂ (WritesNode layout tree (level + 1)) (tree.childrenOf id)
          children :=
        forall₂_childrenOf hcount fun k hk => ih k hk (hinside _ (List.getElem_mem hk)) (level + 1)
      have hbound : 4 * (Message.node header tag payload children).nodes - 2 =
          4 * Message.nodesOf children + 2 := by
        rw [Message.nodes]
        omega
      rw [WritesNode, hbound]
      cases tag with
      | array count =>
          refine (writesAll_items hbelow).enclosed ?_
          rw [contents?, htag]
      | map pairs =>
          refine (writesAll_pairs hbelow).enclosed ?_
          rw [contents?, htag, ← pairsOf_eq_paired htag]
      | str length | bin length | ext type length =>
          have hscalar : Writes layout tree _ _ 1 :=
            .scalar (show contents? layout tree id level = none by rw [contents?, htag])
          rw [htag, hpayload] at hscalar
          exact hscalar.mono (by omega)
      | _ =>
          have hscalar : Writes layout tree _ _ 1 :=
            .scalar (show contents? layout tree id level = none by rw [contents?, htag])
          rw [htag, hpayload] at hscalar
          rw [List.eq_nil_of_length_eq_zero hlength]
          exact hscalar.mono (by omega)

/-- A rendering is the text of the part that the node shows, from the outermost level on. -/
theorem render_of_parseWithin (hparse : parseWithin config maxDepth bytes = .ok tree) :
    ∃ whole : Message, whole.Complete config.tagOptions ∧ whole.bytes = bytes ∧
      ∀ n id, tree.At n id → ∃ part, whole.Part n part ∧ tree.Shows part id ∧
        ∀ layout requests, render layout
          (Latch.serveAll (Latch.serve perform) requests { state := tree }).2.state id =
            part.render layout 0 := by
  obtain ⟨whole, hcomplete, rfl, hroot, -⟩ := shows_of_parseWithin hparse
  refine ⟨whole, hcomplete, rfl, fun n id hat => ?_⟩
  obtain ⟨part, hpart, hshows⟩ := hroot.part_of_at hat
  refine ⟨part, hpart, hshows, fun layout requests => ?_⟩
  rw [serveAll_state]
  refine (hshows.writes (hpart.complete hcomplete) layout 0).run ?_
  have hnodes := hpart.nodes_le
  rw [pieceBound, nodeCount_of_parseWithin hcomplete hparse]
  omega

/-- An array as the key of an empty map, after a question that has failed. -/
theorem render_of_parseWithin_nested :
    ∃ tree, parseWithin {} 2 [0x81, 0x92, 0x01, 0xc0, 0x80] = .ok tree ∧
      render .pretty (Latch.serveAll (Latch.serve perform) [.call (.ask tree.root .nil)]
        { state := tree }).2.state tree.root =
          "\x7b\n  [\n    1,\n    null\n  ]: \x7b\x7d\n\x7d" := by
  let items : List Message := [.node [0x01] (.uint 1) [] [], .node [0xc0] .nil [] []]
  let entry : List Message := [.node [0x92] (.array 2) [] items, .node [0x80] (.map 0) [] []]
  have hitems : ∀ child ∈ items, child.Complete {} := by
    intro child hchild
    simp only [items, List.mem_cons, List.not_mem_nil, or_false] at hchild
    rcases hchild with rfl | rfl <;> exact .node rfl rfl rfl fun _ hnone => by cases hnone
  have hentry : ∀ child ∈ entry, child.Complete {} := by
    intro child hchild
    simp only [entry, List.mem_cons, List.not_mem_nil, or_false] at hchild
    rcases hchild with rfl | rfl
    · exact .node rfl rfl rfl hitems
    · exact .node rfl rfl rfl fun _ hnone => by cases hnone
  have hcomplete : (Message.node [0x81] (.map 1) [] entry).Complete {} :=
    .node rfl rfl rfl hentry
  obtain ⟨tree, hparse, -⟩ := parseWithin_ok (show Config.Valid {} by decide) rfl (by decide)
    hcomplete (show 2 ≤ 2 by decide) (by decide) (by decide)
  obtain ⟨whole, hwhole, hbytes, hrender⟩ := render_of_parseWithin hparse
  obtain ⟨rfl, -⟩ := hwhole.unique hcomplete (congrArg (· ++ []) hbytes)
  obtain ⟨part, hpart, -, htext⟩ := hrender 0 tree.root .root
  cases hpart
  refine ⟨tree, hparse, (htext .pretty _).trans ?_⟩
  rfl

end Parts

end Tree
end MessagePack
