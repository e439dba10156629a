import MessagePack.Json.OfTree
import MessagePack.Proofs.Faithful
import MessagePack.Proofs.JsonValue

/-!
JSON documents out of trees. A tree that holds the value of a document gives that document, as long
as its floats have been read as numbers.
-/

namespace MessagePack

theorem Header.decode_native {options : TagOptions} {buffer : Bytes} {found : Tag} {n : Nat}
    (hfloat : options.float = .native) (hdecode : decode options buffer = .ok (found, n))
    (bits : UInt64) : found ≠ .rawDouble bits := by
  cases buffer with
  | nil => cases hdecode
  | cons marker rest =>
      obtain ⟨-, -, -, rfl⟩ := decode_cons_iff.mp hdecode
      rw [hfloat]
      cases Form.ofMarker marker <;> exact fun hraw => by cases hraw

namespace Tree

/-- No number is left as a bare bit pattern. -/
def Native (tree : Tree) : Prop :=
  ∀ n id, tree.At n id → ∀ bits, tree.tagAt id ≠ .rawDouble bits

variable {config : Config} {maxDepth n : Nat} {bytes : Bytes} {tree : Tree} {id : NodeId}

theorem At.childrenOf {child : NodeId} (hat : tree.At n id) (hchild : child ∈ tree.childrenOf id) :
    tree.At (n + 1) child := by
  obtain ⟨k, hk, rfl⟩ := List.mem_map.mp hchild
  exact hat.child (List.mem_range.mp hk)

theorem At.pairsOf {pairs : UInt32} {pair : NodeId × NodeId} (hat : tree.At n id)
    (htag : tree.tagAt id = .map pairs) (hpair : pair ∈ tree.pairsOf id pairs.toNat) :
    tree.At (n + 1) pair.2 := by
  obtain ⟨k, hk, rfl⟩ := List.mem_map.mp hpair
  refine hat.child ?_
  rw [childCount, htag]
  have := List.mem_range.mp hk
  show 2 * k + 1 < 2 * pairs.toNat
  omega

theorem native_of_parseWithin (hfloat : config.float = .native)
    (hparse : parseWithin config maxDepth bytes = .ok tree) : tree.Native := by
  intro n id hat bits
  obtain ⟨-, trace, hrecorded⟩ := parseFront_recorded (parseFront_of_parseWithin hparse)
    (Nat.le_max_left _ bytes.length) (Nat.le_max_right _ _)
  have hmember : (tree.tagAt id, (tree.arena.get id).start) ∈
      trace.map fun filled => (filled.node.tag, filled.node.start) := by
    rw [hrecorded.series_preorder]
    exact List.mem_map.mpr ⟨id, hrecorded.mem_iff.mpr ⟨n, hat⟩, rfl⟩
  obtain ⟨before, header, payload, behind, -, hdecode, -⟩ := hrecorded.series.split hmember
  exact Header.decode_native hfloat hdecode bits

end Tree

namespace Json

variable {tree : Tree} {fuel : Nat} {id : NodeId} {n : Nat} {document : Json}

theorem keyOfNode_of_value {key : String}
    (hkey : Value.ofNodeWithin tree fuel id = .ok (.str key)) : keyOfNode tree id = .ok key := by
  cases fuel with
  | zero => cases hkey
  | succ fuel =>
      rw [Value.ofNodeWithin] at hkey
      rw [keyOfNode]
      cases htag : tree.tagAt id with
      | str length =>
          rw [htag] at hkey
          obtain ⟨text, htext, hpure⟩ := bind_eq_ok hkey
          cases hpure
          exact htext
      | bin _ | ext _ _ | array _ | map _ =>
          rw [htag] at hkey
          obtain ⟨_, -, hpure⟩ := bind_eq_ok hkey
          cases hpure
      | _ =>
          rw [htag] at hkey
          cases hkey

/-- What looks like the images of some documents is converted to these. -/
theorem mapM_convert {places : List α} {wanted : List γ} {image : γ → β}
    {look : α → Except Error β} {convert : α → Except Error γ}
    (hconvert : ∀ place ∈ places, ∀ document ∈ wanted, look place = .ok (image document) →
      convert place = .ok document)
    (hlook : places.mapM look = .ok (wanted.map image)) : places.mapM convert = .ok wanted := by
  induction places generalizing wanted with
  | nil =>
      cases wanted with
      | nil => rfl
      | cons document wanted => cases hlook
  | cons place places ih =>
      rw [List.mapM_cons] at hlook
      obtain ⟨first, hfirst, hlook⟩ := bind_eq_ok hlook
      obtain ⟨others, hothers, hpure⟩ := bind_eq_ok hlook
      cases wanted with
      | nil => cases hpure
      | cons document wanted =>
          cases hpure
          have hrest := ih (fun place hplace document hdocument =>
            hconvert place (.tail _ hplace) document (.tail _ hdocument)) hothers
          rw [List.mapM_cons, hconvert place (.head _) document (.head _) hfirst, hrest]
          rfl

/-- The same of pairs, as the members of an object. -/
theorem members_of_value {pairs : List (NodeId × NodeId)} {members : List (String × Json)}
    (hconvert : ∀ pair ∈ pairs, ∀ member ∈ members,
      Value.ofNodeWithin tree fuel pair.2 = .ok member.2.value →
        ofNodeWithin tree fuel pair.2 = .ok member.2)
    (hlook : (pairs.mapM fun (key, value) =>
      return (← Value.ofNodeWithin tree fuel key, ← Value.ofNodeWithin tree fuel value)) =
        .ok (entries members)) :
    (pairs.mapM fun (key, value) =>
      return (← keyOfNode tree key, ← ofNodeWithin tree fuel value)) = .ok members := by
  rw [entries_eq_map] at hlook
  refine mapM_convert (fun pair hpair member hmember hlook => ?_) hlook
  obtain ⟨key, hkey, hlook⟩ := bind_eq_ok hlook
  obtain ⟨value, hvalue, hpure⟩ := bind_eq_ok hlook
  cases hpure
  simp only [keyOfNode_of_value hkey, hconvert pair hpair member hmember hvalue]
  rfl

theorem ofNodeWithin_value (hnative : tree.Native) (hat : tree.At n id)
    (hproper : document.Proper)
    (hvalue : Value.ofNodeWithin tree fuel id = .ok document.value) :
    ofNodeWithin tree fuel id = .ok document := by
  induction fuel generalizing n id document with
  | zero => cases hvalue
  | succ fuel ih =>
      rw [Value.ofNodeWithin] at hvalue
      rw [ofNodeWithin]
      have hbare := hnative n id hat
      generalize htag : tree.tagAt id = tag at hvalue hbare ⊢
      cases tag with
      | nil | bool _ | uint _ =>
          cases document <;> cases hvalue
          rfl
      | int value =>
          cases document <;> cases hvalue
          exact congrArg Except.ok (if_neg (Int64.not_le.mpr hproper))
      | float _ | rawFloat _ => cases document <;> cases hvalue
      | double bits =>
          cases document <;> cases hvalue
          obtain ⟨negative, significand, exponent, hfinite⟩ := hproper
          simp only [ofDouble, hfinite, UInt64.ofNat_toNat]
      | rawDouble bits => exact absurd rfl (hbare bits)
      | str length =>
          obtain ⟨text, htext, hpure⟩ := bind_eq_ok hvalue
          cases document <;> cases hpure
          simp only [htext]
          rfl
      | bin _ | ext _ _ =>
          obtain ⟨_, -, hpure⟩ := bind_eq_ok hvalue
          cases document <;> cases hpure
      | array count =>
          obtain ⟨found, hfound, hpure⟩ := bind_eq_ok hvalue
          cases document with
          | array items =>
              cases hpure
              rw [values_eq_map] at hfound
              have hitems := mapM_convert (fun child hchild item hitem hlook =>
                ih (hat.childrenOf hchild) (hproper.item hitem) hlook) hfound
              simp only [hitems]
              rfl
          | _ => cases hpure
      | map pairs =>
          obtain ⟨found, hfound, hpure⟩ := bind_eq_ok hvalue
          cases document with
          | object members =>
              cases hpure
              obtain ⟨hsorted, hmembers⟩ := hproper
              have hconverted := members_of_value (fun pair hpair member hmember hlook =>
                ih (hat.pairsOf htag hpair) (hmembers.member hmember) hlook) hfound
              simp only [hconverted]
              exact congrArg Except.ok (ofMembers_sorted hsorted)
          | _ => cases hpure

theorem ofTree_value {config : Config} {maxDepth : Nat} {bytes : Bytes}
    (hfloat : config.float = .native)
    (hparse : Tree.parseWithin config maxDepth bytes = .ok tree) (hproper : document.Proper)
    (hvalue : Value.ofTree tree = .ok document.value) : ofTree tree = .ok document :=
  ofNodeWithin_value (Tree.native_of_parseWithin hfloat hparse) .root hproper hvalue

end Json
end MessagePack
