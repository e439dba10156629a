import MessagePack.Proofs.Parts
import MessagePack.Proofs.Scalars

/-!
Looking up keys in a map. The value found is the one behind the first key that is asked for: a str
of these very bytes, or an integer of this value in whatever header.
-/

namespace MessagePack

/-- The least place of an entry that is accepted, if there is one. -/
inductive First (accepts : α → Prop) (entries : List α) : Option Nat → Prop
  | found {k : Nat} {entry : α} (hentry : entries[k]? = some entry) (haccepts : accepts entry)
      (hbefore : ∀ j < k, ∀ other, entries[j]? = some other → ¬accepts other) :
      First accepts entries (some k)
  | absent (hnone : ∀ entry ∈ entries, ¬accepts entry) : First accepts entries none

theorem First.find_range {accepts : α → Prop} {entries : List α} {test : Nat → Bool}
    (htest : ∀ k entry, entries[k]? = some entry → (test k = true ↔ accepts entry)) :
    First accepts entries ((List.range entries.length).find? test) := by
  cases hfind : (List.range entries.length).find? test with
  | some k =>
      obtain ⟨hk, hmember, hbefore⟩ := List.find?_range_eq_some.mp hfind
      have hentry := List.getElem?_eq_getElem (List.mem_range.mp hmember)
      refine .found hentry ((htest k _ hentry).mp hk) fun j hj other hother haccepts => ?_
      have hnot := hbefore j hj
      rw [(htest j other hother).mpr haccepts] at hnot
      cases hnot
  | none =>
      refine .absent fun entry hentry haccepts => ?_
      obtain ⟨k, hk, rfl⟩ := List.mem_iff_getElem.mp hentry
      have hnot := List.find?_range_eq_none.mp hfind k hk
      rw [(htest k _ (List.getElem?_eq_getElem hk)).mpr haccepts] at hnot
      cases hnot

/-! The header of an integer. -/

theorem bigEndian_ofBigEndian (bytes : Bytes) :
    bigEndian bytes.length (ofBigEndian bytes) = bytes := by
  induction bytes using List.reverseRecOn with
  | nil => rfl
  | append_singleton bytes byte ih =>
      have hbyte : byte.toNat < 256 := byte.toNat_lt
      have hfront : (ofBigEndian bytes * 256 + byte.toNat) / 256 = ofBigEndian bytes := by omega
      have hlast : UInt8.ofNat (ofBigEndian bytes * 256 + byte.toNat) = byte := by
        apply UInt8.toNat_inj.mp
        rw [UInt8.toNat_ofNat']
        omega
      rw [List.length_append, List.length_singleton, bigEndian, ofBigEndian_concat, hfront, ih,
        hlast]

/-- A header whose tag is an integer spells it. -/
theorem Header.Spells.of_decode {options : TagOptions} {header : Bytes} {tag : Tag} {number : Int}
    (hdecode : Header.decode options header = .ok (tag, header.length))
    (hnumber : tag.integer? = some number) : Header.Spells number header := by
  cases header with
  | nil => cases hdecode
  | cons marker body =>
      obtain ⟨hsize, -, -, htag⟩ := Header.decode_cons_iff.mp hdecode
      have hbody : body.length = (Form.ofMarker marker).bodyLength := Nat.succ.inj hsize
      rw [← hbody, List.take_length] at htag
      rw [← Form.marker_ofMarker marker]
      generalize Form.ofMarker marker = form at hbody htag ⊢
      subst htag
      cases form with
      | positiveFix value =>
          have hvalue : ∀ value : Fin 128, (Tag.uint (UInt64.ofNat value)).integer? =
              some (value : Int) := by
            decide
          cases List.eq_nil_of_length_eq_zero hbody
          obtain rfl : (value : Int) = number := Option.some.inj ((hvalue value).symm.trans hnumber)
          exact .positive value
      | negativeFix value =>
          have hvalue : ∀ value : Fin 32, (Tag.int (Int64.ofInt (value - 32))).integer? =
              some ((value : Int) - 32) := by
            decide
          cases List.eq_nil_of_length_eq_zero hbody
          obtain rfl : (value : Int) - 32 = number :=
            Option.some.inj ((hvalue value).symm.trans hnumber)
          exact .negative value
      | uint k =>
          obtain ⟨hnat, hlt⟩ := Header.toNat_ofBigEndian_wide hbody
          obtain rfl : (ofBigEndian body : Int) = number := by
            rw [← hnat]
            exact Option.some.inj hnumber
          have hrow := (Table.mem_rows Form.uint (fun k => Form.wordLength k) (by rfl)).mpr
            ⟨k, rfl, rfl⟩
          have hspells := Spells.unsigned hrow hlt
          rwa [← show body.length = Form.wordLength k from hbody, bigEndian_ofBigEndian] at hspells
      | int k =>
          obtain ⟨hint, hleast, hgreatest⟩ := Header.toInt_signedOfBigEndian hbody
          obtain rfl : signedOfBigEndian body = number := by
            rw [← hint]
            exact Option.some.inj hnumber
          have hrow := (Table.mem_rows Form.int (fun k => Form.wordLength k) (by rfl)).mpr
            ⟨k, rfl, rfl⟩
          have hspells := Spells.signed hrow hleast hgreatest
          have hword : (signedOfBigEndian body % (256 ^ body.length : Nat)).toNat =
              ofBigEndian body := by
            have hlt := ofBigEndian_lt body
            rw [Nat.pow_eq] at hlt
            rw [signedOfBigEndian, Nat.pow_eq, Int.bmod_emod, ← Int.natCast_emod,
              Nat.mod_eq_of_lt hlt, Int.toNat_natCast]
          rwa [← show body.length = Form.wordLength k from hbody, hword,
            bigEndian_ofBigEndian] at hspells
      | float | double =>
          generalize options.float = float at hnumber
          cases float <;> cases hnumber
      | _ => cases hnumber

namespace Message

/-- A str of just the bytes of this text. -/
def IsText (text : String) : Message → Prop
  | .node _ tag payload _ => tag.kind = .str ∧ payload = utf8 text

/-- An integer of this value, in a header of any width and sign. -/
def IsInteger (number : Int) : Message → Prop
  | .node header _ _ _ => Header.Spells number header

end Message

namespace Tree

variable {config : Config} {maxDepth n : Nat} {options : TagOptions} {bytes : Bytes} {tree : Tree}
  {message : Message} {id : NodeId} {pairs : UInt32} {accepts : NodeId → Bool}

theorem Shows.isText_iff (hshows : tree.Shows message id) (text : String) :
    tree.isText text id = true ↔ message.IsText text := by
  cases hshows with
  | @node _ _ tag _ _ htag hpayload _ _ =>
      rw [isText, htag, Message.IsText]
      cases tag with
      | str length =>
          simp only [hpayload, Tag.payloadLength?, Option.map_some, beq_iff_eq, Option.some.injEq,
            Tag.kind, true_and]
      | _ => simp [Tag.kind]

theorem Shows.integer_iff (hcomplete : message.Complete options)
    (hshows : tree.Shows message id) (number : Int) :
    (tree.tagAt id).integer? = some number ↔ message.IsInteger number := by
  cases hshows with
  | node htag _ _ _ =>
      cases hcomplete with
      | node hheader _ _ _ =>
          rw [htag, Message.IsInteger]
          constructor
          · exact Header.Spells.of_decode hheader
          · intro hspells
            obtain ⟨found, hfound, hnumber⟩ := hspells.decode options
            rw [hheader] at hfound
            cases hfound
            exact hnumber

theorem Shows.isUnsigned_iff (hcomplete : message.Complete options)
    (hshows : tree.Shows message id) (number : UInt64) :
    tree.isUnsigned number id = true ↔ message.IsInteger number.toNat := by
  rw [isUnsigned, beq_iff_eq, Tag.unsigned?_eq_some]
  exact hshows.integer_iff hcomplete _

theorem Shows.isSigned_iff (hcomplete : message.Complete options)
    (hshows : tree.Shows message id) (number : Int64) :
    tree.isSigned number id = true ↔ message.IsInteger number.toInt := by
  rw [isSigned, beq_iff_eq, Tag.signed?_eq_some]
  exact hshows.integer_iff hcomplete _

/-! The pairs of a map node. -/

def valueIn (tree : Tree) (id : NodeId) (k : Nat) : NodeId :=
  tree.child id (2 * k + 1)

/-- A search goes through the keys from the first pair on. -/
theorem find?_map (accepts : NodeId → Bool) (htag : tree.tagAt id = .map pairs) :
    find? accepts tree id = .ok
      (((List.range pairs.toNat).find? fun k => accepts (tree.child id (2 * k))).map
        (tree.valueIn id)) := by
  have hentries : tree.entries id = .ok (tree.pairsOf id pairs.toNat) := by rw [entries, htag]
  rw [find?, hentries]
  simp only [bind, Except.bind, pure, Except.pure, pairsOf, List.find?_map, Option.map_map]
  rfl

theorem pairAt_map {k : Nat} (htag : tree.tagAt id = .map pairs) (hk : k < pairs.toNat) :
    tree.pairAt id k = .ok (tree.child id (2 * k), tree.valueIn id k) := by
  rw [pairAt, htag]
  exact if_pos hk

/-- What must be there is the answer, or is missed, and that is recorded. -/
def demanded (tree : Tree) : Option NodeId → Except Error Answer × Session
  | some value => (.ok (.node value), { state := tree })
  | none => (.error (.invalid .keyNotFound),
      { state := tree, error? := some (.invalid .keyNotFound) })

/-- A node answers as a map with these pairs does. -/
structure Maps (tree : Tree) (id : NodeId) (pairs : List (Message × Message)) : Prop where
  key : ∀ k key value, pairs[k]? = some (key, value) →
    tree.Shows key (tree.child id (2 * k)) ∧
      ask id (.keyAt k) { state := tree } =
        (.ok (.node (tree.child id (2 * k))), { state := tree })
  value : ∀ k key value, pairs[k]? = some (key, value) →
    tree.Shows value (tree.valueIn id k) ∧
      ask id (.valueAt k) { state := tree } = (.ok (.node (tree.valueIn id k)), { state := tree })
  text : ∀ text, ∃ place?, First (fun pair => pair.1.IsText text) pairs place? ∧
    ask id (.findText? text) { state := tree } =
      (.ok (.node? (place?.map (tree.valueIn id))), { state := tree }) ∧
    ask id (.findText text) { state := tree } = tree.demanded (place?.map (tree.valueIn id)) ∧
    ask id (.containsText text) { state := tree } =
      (.ok (.bool place?.isSome), { state := tree })
  unsigned : ∀ number : UInt64, ∃ place?,
    First (fun pair => pair.1.IsInteger number.toNat) pairs place? ∧
    ask id (.findUnsigned number) { state := tree } = tree.demanded (place?.map (tree.valueIn id))
  signed : ∀ number : Int64, ∃ place?,
    First (fun pair => pair.1.IsInteger number.toInt) pairs place? ∧
    ask id (.findSigned number) { state := tree } = tree.demanded (place?.map (tree.valueIn id))

theorem ask_ok {query : Query} {answer : Answer} (hanswer : tree.answer id query = .ok answer) :
    ask id query { state := tree } = (.ok answer, { state := tree }) :=
  Latch.call_of_ok (congrArg (·, tree) hanswer)

theorem ask_find {query : Query} {place? : Option Nat}
    (hquery : tree.answer id query = (return .node (← find accepts tree id)))
    (hfind : find? accepts tree id = .ok (place?.map (tree.valueIn id))) :
    ask id query { state := tree } = tree.demanded (place?.map (tree.valueIn id)) := by
  cases place? with
  | some k =>
      refine ask_ok ?_
      rw [hquery, find, hfind]
      rfl
  | none =>
      have herror : tree.answer id query = .error (.invalid .keyNotFound) := by
        rw [hquery, find, hfind]
        rfl
      exact Latch.call_of_error (congrArg (·, tree) herror)

theorem Shows.maps {header payload : Bytes} {children : List Message}
    (hcomplete : (Message.node header (.map pairs) payload children).Complete options)
    (hshows : tree.Shows (.node header (.map pairs) payload children) id) :
    tree.Maps id (paired children) := by
  cases hcomplete with
  | node _ _ hcount hinside =>
      obtain ⟨htag, -, -, hchildren⟩ := hshows
      have hlength : (paired children).length = pairs.toNat := length_paired hcount
      have hchild : ∀ k child, children[k]? = some child →
          child.Complete options ∧ tree.Shows child (tree.child id k) := by
        intro k child hchild
        obtain ⟨hk, rfl⟩ := List.getElem?_eq_some_iff.mp hchild
        exact ⟨hinside _ (List.getElem_mem hk), hchildren k hk⟩
      have hplace : ∀ {k pair}, (paired children)[k]? = some pair → k < pairs.toNat := by
        intro k pair hpair
        exact hlength ▸ (List.getElem?_eq_some_iff.mp hpair).1
      refine ⟨?_, ?_, fun text => ?_, fun number => ?_, fun number => ?_⟩
      · intro k key value hpair
        refine ⟨(hchild _ key (getElem?_paired hpair).1).2, ask_ok ?_⟩
        rw [answer, pairAt_map htag (hplace hpair)]
        rfl
      · intro k key value hpair
        refine ⟨(hchild _ value (getElem?_paired hpair).2).2, ask_ok ?_⟩
        rw [answer, pairAt_map htag (hplace hpair)]
        rfl
      · have hfind := find?_map (tree.isText text) htag
        rw [← hlength] at hfind
        refine ⟨_, First.find_range fun k pair hpair => ?_, ?_, ask_find rfl hfind, ?_⟩
        · exact (hchild _ pair.1 (getElem?_paired hpair).1).2.isText_iff text
        · refine ask_ok ?_
          rw [answer, hfind]
          rfl
        · refine ask_ok ?_
          rw [answer, hfind]
          simp only [bind, Except.bind, pure, Except.pure, Option.isSome_map]
      · have hfind := find?_map (tree.isUnsigned number) htag
        rw [← hlength] at hfind
        refine ⟨_, First.find_range fun k pair hpair => ?_, ask_find rfl hfind⟩
        obtain ⟨hkey, hshown⟩ := hchild _ pair.1 (getElem?_paired hpair).1
        exact hshown.isUnsigned_iff hkey number
      · have hfind := find?_map (tree.isSigned number) htag
        rw [← hlength] at hfind
        refine ⟨_, First.find_range fun k pair hpair => ?_, ask_find rfl hfind⟩
        obtain ⟨hkey, hshown⟩ := hchild _ pair.1 (getElem?_paired hpair).1
        exact hshown.isSigned_iff hkey number

/-- Looking up a number comes to its value alone, whichever word it is looked up by. -/
theorem Maps.integer {entries : List (Message × Message)} (hmaps : tree.Maps id entries)
    {number : Int} (hleast : -0x8000000000000000 ≤ number) (hgreatest : number < UInt64.size) :
    ∃ place?, First (fun pair => pair.1.IsInteger number) entries place? ∧
      ask id (.findInteger number) { state := tree } =
        tree.demanded (place?.map (tree.valueIn id)) := by
  have hlimit : Int64.maxValue.toInt = 0x7fffffffffffffff := rfl
  rw [Query.findInteger, hlimit]
  split
  · have hword : (Int64.ofInt number).toInt = number :=
      Int64.toInt_ofInt_of_le hleast (by omega)
    have hsigned := hmaps.signed (Int64.ofInt number)
    rwa [hword] at hsigned
  · have hword : ((UInt64.ofNat number.toNat).toNat : Int) = number := by
      rw [UInt64.toNat_ofNat_of_lt' (by omega)]
      omega
    have hunsigned := hmaps.unsigned (UInt64.ofNat number.toNat)
    rwa [hword] at hunsigned

/-- Every map in a tree is one in the bytes, and is looked up there pair by pair. -/
theorem parseWithin_maps (hparse : parseWithin config maxDepth bytes = .ok tree)
    (hat : tree.At n id) (htag : tree.tagAt id = .map pairs) :
    ∃ (whole : Message) (header : Bytes) (children : List Message),
      whole.Complete config.tagOptions ∧ whole.bytes = bytes ∧
        whole.Part n (.node header (.map pairs) [] children) ∧
        children.length = 2 * pairs.toNat ∧ tree.Maps id (paired children) := by
  obtain ⟨whole, hcomplete, hbytes, hroot, -⟩ := shows_of_parseWithin hparse
  obtain ⟨part, hpart, hshows⟩ := hroot.part_of_at hat
  have hmap := hpart.complete hcomplete
  obtain ⟨header, tag, payload, children⟩ := part
  obtain rfl : tag = .map pairs := by
    obtain ⟨hfound, -⟩ := hshows
    exact hfound.symm.trans htag
  have hmaps := hshows.maps hmap
  obtain ⟨-, hpayload, hcount, -⟩ := hmap
  obtain rfl : payload = [] := List.eq_nil_of_length_eq_zero hpayload
  exact ⟨whole, header, children, hcomplete, hbytes, hpart, hcount, hmaps⟩

/-- A text is a key of two pairs, and between them stands a small integer in a wide header. -/
theorem parseWithin_maps_twice :
    ∃ tree, parseWithin {} 1
        [0x83, 0xa1, 0x61, 0x01, 0xd2, 0x00, 0x00, 0x00, 0x07, 0x02, 0xa1, 0x61, 0xc0] =
          .ok tree ∧
      tree.tagAt tree.root = .map 3 ∧
        ∃ children : List Message, children.length = 6 ∧ tree.Maps tree.root (paired children) := by
  let key : Message := .node [0xa1] (.str 1) [0x61] []
  let number : Message := .node [0xd2, 0x00, 0x00, 0x00, 0x07] (.int 7) [] []
  let children : List Message :=
    [key, .node [0x01] (.uint 1) [] [], number, .node [0x02] (.uint 2) [] [], key,
      .node [0xc0] .nil [] []]
  have hchildren : ∀ child ∈ children, child.Complete {} := by
    intro child hchild
    simp only [children, List.mem_cons, List.not_mem_nil, or_false] at hchild
    rcases hchild with rfl | rfl | rfl | rfl | rfl | rfl <;>
      exact .node rfl rfl rfl fun _ hnone => by cases hnone
  have hcomplete : (Message.node [0x83] (.map 3) [] children).Complete {} :=
    .node rfl rfl rfl hchildren
  obtain ⟨tree, hparse, -⟩ := parseWithin_ok (show Config.Valid {} by decide) rfl (by decide)
    hcomplete (show 1 ≤ 1 by decide) (by decide) (by decide)
  have htag : tree.tagAt tree.root = .map 3 := by
    obtain ⟨other, hother, hbytes, hroot, -⟩ := shows_of_parseWithin hparse
    obtain ⟨rfl, -⟩ := hother.unique hcomplete (congrArg (· ++ []) hbytes)
    obtain ⟨hfound, -⟩ := hroot
    exact hfound
  obtain ⟨-, -, found, -, -, -, hcount, hmaps⟩ := parseWithin_maps hparse .root htag
  exact ⟨tree, hparse, htag, found, hcount, hmaps⟩

end Tree
end MessagePack
