import MessagePack.Proofs.Grammar
import MessagePack.Value

/-!
Messages as documents: the value a message stands for, and how deep and how large it is.
-/

namespace MessagePack

theorem map_eq_ok {outcome : Except Error α} {change : α → β} {result : β}
    (hmap : outcome.map change = .ok result) :
    ∃ value, outcome = .ok value ∧ result = change value := by
  cases outcome with
  | error error => cases hmap
  | ok value =>
      cases hmap
      exact ⟨value, rfl, rfl⟩

theorem map_eq_error_iff {outcome : Except Error α} {change : α → β} {error : Error} :
    outcome.map change = .error error ↔ outcome = .error error := by
  cases outcome <;> simp [Except.map]

def paired : List α → List (α × α)
  | key :: value :: rest => (key, value) :: paired rest
  | _ => []

def Value.ofText (content : Bytes) : Except Error Value :=
  match ofUtf8? content with
  | some text => .ok (.str text)
  | none => .error (.invalid .invalidUtf8)

namespace Message

mutual

/-- Only the text of a str can be wrong. -/
def value : Message → Except Error Value
  | .node _ tag payload children =>
      match tag with
      | .nil => .ok .nil
      | .bool value => .ok (.bool value)
      | .int value => .ok (.int value)
      | .uint value => .ok (.uint value)
      | .float bits | .rawFloat bits => .ok (.float bits)
      | .double bits | .rawDouble bits => .ok (.double bits)
      | .str _ => Value.ofText payload
      | .bin _ => .ok (.bin payload)
      | .ext type _ => .ok (.ext type payload)
      | .array _ => (values children).map .array
      | .map _ => (values children).map fun found => .map (paired found)

def values : List Message → Except Error (List Value)
  | [] => .ok []
  | message :: messages => do
      let first ← value message
      let rest ← values messages
      return first :: rest

end

mutual

def depth : Message → Nat
  | .node _ tag _ children =>
      match tag.childCount? with
      | some _ => depths children + 1
      | none => 0

def depths : List Message → Nat
  | [] => 0
  | message :: messages => max (depth message) (depths messages)

end

mutual

def nodes : Message → Nat
  | .node _ _ _ children => nodesOf children + 1

def nodesOf : List Message → Nat
  | [] => 0
  | message :: messages => nodes message + nodesOf messages

end

variable {options : TagOptions}

theorem Complete.length_pos {message : Message} (hcomplete : message.Complete options) :
    0 < message.bytes.length := by
  cases hcomplete with
  | node hheader _ _ _ =>
      have := Header.decode_size_pos hheader
      simp only [bytes, List.length_append]
      omega

theorem length_le_text {messages : List Message}
    (hcomplete : ∀ message ∈ messages, message.Complete options) :
    messages.length ≤ (text messages).length := by
  induction messages with
  | nil => exact Nat.le_refl 0
  | cons message messages ih =>
      have hpos := (hcomplete message (.head _)).length_pos
      have hrest := ih fun other hother => hcomplete other (.tail _ hother)
      rw [List.length_cons, text, List.length_append]
      omega

theorem depth_node {header payload : Bytes} {tag : Tag} {children : List Message}
    (hopens : tag.childCount? ≠ none) :
    (node header tag payload children).depth = depths children + 1 := by
  rw [depth]
  split
  · rfl
  · next hnone => exact absurd hnone hopens

theorem depths_le {messages : List Message} {limit : Nat}
    (hdepth : ∀ message ∈ messages, message.depth ≤ limit) : depths messages ≤ limit := by
  induction messages with
  | nil => exact Nat.zero_le limit
  | cons message messages ih =>
      rw [depths, Nat.max_le]
      exact ⟨hdepth message (.head _), ih fun other hother => hdepth other (.tail _ hother)⟩

theorem le_depths {message : Message} {messages : List Message} (hmember : message ∈ messages) :
    message.depth ≤ depths messages := by
  induction messages with
  | nil => exact absurd hmember List.not_mem_nil
  | cons first messages ih =>
      rw [depths]
      rcases List.mem_cons.mp hmember with rfl | hmember
      · exact Nat.le_max_left _ _
      · exact Nat.le_trans (ih hmember) (Nat.le_max_right _ _)

theorem nodesOf_append (first second : List Message) :
    nodesOf (first ++ second) = nodesOf first + nodesOf second := by
  induction first with
  | nil => exact (Nat.zero_add _).symm
  | cons message messages ih => rw [List.cons_append, nodesOf, nodesOf, ih, Nat.add_assoc]

theorem length_le_nodesOf (messages : List Message) : messages.length ≤ nodesOf messages := by
  induction messages with
  | nil => exact Nat.le_refl 0
  | cons message messages ih =>
      obtain ⟨header, tag, payload, children⟩ := message
      rw [List.length_cons, nodesOf, nodes]
      omega

mutual

theorem depth_le_nodes : (message : Message) → message.depth ≤ message.nodes
  | .node _ _ _ children => by
      have hchildren := depths_le_nodesOf children
      rw [depth, nodes]
      split <;> omega

theorem depths_le_nodesOf : (messages : List Message) → depths messages ≤ nodesOf messages
  | [] => Nat.le_refl 0
  | message :: messages => by
      have hfirst := depth_le_nodes message
      have hrest := depths_le_nodesOf messages
      rw [depths, nodesOf]
      omega

end

theorem nodesOf_le_text {messages : List Message}
    (hnodes : ∀ message ∈ messages, message.nodes ≤ message.bytes.length) :
    nodesOf messages ≤ (text messages).length := by
  induction messages with
  | nil => exact Nat.le_refl 0
  | cons message messages ih =>
      have hfirst := hnodes message (.head _)
      have hrest := ih fun other hother => hnodes other (.tail _ hother)
      rw [nodesOf, text, List.length_append]
      omega

/-- Every node has a byte of its own. -/
theorem Complete.nodes_le {message : Message} (hcomplete : message.Complete options) :
    message.nodes ≤ message.bytes.length := by
  induction hcomplete with
  | node hheader _ _ _ ih =>
      have hpos := Header.decode_size_pos hheader
      have hchildren := nodesOf_le_text ih
      rw [nodes, bytes, List.length_append, List.length_append]
      omega

theorem values_cons_eq_ok {message : Message} {messages : List Message} {found : List Value} :
    values (message :: messages) = .ok found ↔
      ∃ first rest, message.value = .ok first ∧ values messages = .ok rest ∧
        found = first :: rest := by
  rw [values]
  constructor
  · intro hvalues
    obtain ⟨first, hfirst, hothers⟩ := bind_eq_ok hvalues
    obtain ⟨rest, hrest, hpure⟩ := bind_eq_ok hothers
    cases hpure
    exact ⟨first, rest, hfirst, hrest, rfl⟩
  · rintro ⟨first, rest, hfirst, hrest, rfl⟩
    rw [hfirst, hrest]
    rfl

end Message
end MessagePack
