import MessagePack.Proofs.Calls
import MessagePack.Proofs.Grammar
import MessagePack.Proofs.Nesting

/-!
What a tracked draft still owes. The compounds open at a level say which payload and how many
messages have to follow its text, and how many messages it will then be.
-/

namespace MessagePack

/-- With this much payload and this many messages behind it, the text is `count` messages. -/
def Completes (options : TagOptions) (text : Bytes) (payload elements count : Nat) : Prop :=
  ∀ body rest, body.length = payload → Messages options elements rest →
    Messages options count (text ++ body ++ rest)

namespace Completes

variable {options : TagOptions} {text : Bytes} {payload elements count : Nat}

theorem nothing : Completes options [] 0 0 0 := by
  intro body rest hbody hrest
  rw [List.eq_nil_of_length_eq_zero hbody]
  exact hrest

theorem messages (hcompletes : Completes options text 0 0 count) :
    Messages options count text := by
  have hmessages := hcompletes [] [] rfl .none
  simpa using hmessages

theorem another (hcompletes : Completes options text 0 elements count) :
    Completes options text 0 (elements + 1) (count + 1) := by
  intro body rest hbody hrest
  obtain ⟨first, last, rfl, hfirst, hlast⟩ := hrest.split
  rw [← List.append_assoc]
  exact (hcompletes body first hbody hfirst).append hlast

theorem message (hcompletes : Completes options text 0 (elements + 1) count) {bytes : Bytes}
    (hmessage : Messages options 1 bytes) : Completes options (text ++ bytes) 0 elements count := by
  intro body rest hbody hrest
  have hall := hmessage.append hrest
  rw [Nat.add_comm] at hall
  have hmessages := hcompletes [] (bytes ++ rest) rfl hall
  rw [List.eq_nil_of_length_eq_zero hbody]
  simpa [List.append_assoc] using hmessages

theorem header (hcompletes : Completes options text 0 (elements + 1) count) {header : Bytes}
    {tag : Tag} (hheader : Header.decode options header = .ok (tag, header.length)) :
    Completes options (text ++ header) (tag.payloadLength?.getD 0)
      (tag.childCount?.getD 0 + elements) count := by
  intro body rest hbody hrest
  have hmessages := hcompletes [] _ rfl (hrest.enclose hheader hbody)
  simpa [List.append_assoc] using hmessages

theorem bytes {content : Bytes}
    (hcompletes : Completes options text (content.length + payload) elements count) :
    Completes options (text ++ content) payload elements count := by
  intro body rest hbody hrest
  have hmessages := hcompletes (content ++ body) rest (by rw [List.length_append, hbody]) hrest
  simpa [List.append_assoc] using hmessages

end Completes

namespace Frame

def payloadOwed (frame : Frame) : Nat :=
  if frame.kind.holdsBytes then frame.remaining else 0

def elementsOwed (frame : Frame) : Nat :=
  if frame.kind.holdsBytes then 0 else frame.remaining

structure Opened (frame : Frame) (tag : Tag) : Prop where
  counted : frame.openEnded = false
  payload : frame.payloadOwed = tag.payloadLength?.getD 0
  elements : frame.elementsOwed = tag.childCount?.getD 0

theorem opened {tag : Tag} {kind : Compound} {owed : Nat}
    (hopens : tag.opens? = some (kind, owed)) :
    Opened { kind, remaining := owed } tag := by
  cases tag <;> cases hopens <;> exact ⟨rfl, rfl, rfl⟩

theorem Opened.asRead {frame : Frame} {tag : Tag} (hopened : frame.Opened tag)
    (options : TagOptions) : frame.Opened (tag.asRead options) where
  counted := hopened.counted
  payload := by rw [Tag.payloadLength_asRead, hopened.payload]
  elements := by rw [Tag.childCount_asRead, hopened.elements]

end Frame

/-- The payload owed to the innermost of some compounds. -/
def payloadOwed : List Frame → Nat
  | [] => 0
  | top :: _ => top.payloadOwed

def elementsOwed : List Frame → Nat
  | [] => 0
  | top :: outer => top.elementsOwed + elementsOwed outer

/-- The counted compounds open at a level, and its text. A value that is due has been counted
and is not written yet; a payload comes before it. -/
structure Level (options : TagOptions) (due : Nat) (text : Bytes) (block : List Frame)
    (count : Nat) : Prop where
  counted : ∀ frame ∈ block, frame.openEnded = false
  outer : ∀ frame ∈ block.tail, frame.kind.holdsBytes = false
  top : due ≠ 0 → ∀ frame ∈ block.head?, frame.kind.holdsBytes = false
  completes : Completes options text (payloadOwed block) (elementsOwed block + due) count

namespace Level

variable {options : TagOptions} {due count : Nat} {text : Bytes} {block outer : List Frame}
  {top : Frame}

theorem fresh : Level options 0 [] [] 0 where
  counted := fun _ hframe => absurd hframe List.not_mem_nil
  outer := fun _ hframe => absurd hframe List.not_mem_nil
  top := fun hdue => absurd rfl hdue
  completes := .nothing

theorem messages (hlevel : Level options 0 text [] count) : Messages options count text :=
  hlevel.completes.messages

theorem payloadOwed_eq (hlevel : Level options (due + 1) text block count) :
    payloadOwed block = 0 := by
  cases block with
  | nil => rfl
  | cons top outer => simp [payloadOwed, Frame.payloadOwed, hlevel.top (by omega) top rfl]

theorem another (hlevel : Level options 0 text [] count) :
    Level options 1 text [] (count + 1) where
  counted := hlevel.counted
  outer := hlevel.outer
  top := fun _ _ htop => by cases htop
  completes := hlevel.completes.another

theorem element (hlevel : Level options 0 text (top :: outer) count)
    (hkind : top.kind.holdsBytes = false) (hremaining : top.remaining ≠ 0) :
    Level options 1 text ({ top with remaining := top.remaining - 1 } :: outer) count where
  counted := fun frame hframe => by
    rcases List.mem_cons.mp hframe with rfl | hframe
    · exact hlevel.counted top List.mem_cons_self
    · exact hlevel.counted frame (List.mem_cons_of_mem _ hframe)
  outer := hlevel.outer
  top := fun _ frame hframe => by
    cases hframe
    exact hkind
  completes := by
    have hcompletes := hlevel.completes
    simp only [payloadOwed, elementsOwed, Frame.payloadOwed, Frame.elementsOwed, hkind,
      Bool.false_eq_true, if_false] at hcompletes ⊢
    rwa [show top.remaining - 1 + elementsOwed outer + 1 =
      top.remaining + elementsOwed outer + 0 by omega]

theorem message (hlevel : Level options 1 text block count) {bytes : Bytes}
    (hmessage : Messages options 1 bytes) : Level options 0 (text ++ bytes) block count where
  counted := hlevel.counted
  outer := hlevel.outer
  top := fun hdue => absurd rfl hdue
  completes := by
    have hcompletes := hlevel.completes
    rw [hlevel.payloadOwed_eq] at hcompletes ⊢
    exact hcompletes.message hmessage

theorem enter (hlevel : Level options 1 text block count) {header : Bytes} {tag : Tag}
    (hheader : Header.decode options header = .ok (tag, header.length))
    (hopens : top.Opened tag) :
    Level options 0 (text ++ header) (top :: block) count where
  counted := fun frame hframe => by
    rcases List.mem_cons.mp hframe with rfl | hframe
    · exact hopens.counted
    · exact hlevel.counted frame hframe
  outer := fun frame hframe => by
    cases block with
    | nil => cases hframe
    | cons top outer =>
        rcases List.mem_cons.mp hframe with rfl | hframe
        · exact hlevel.top (by omega) frame rfl
        · exact hlevel.outer frame hframe
  top := fun hdue => absurd rfl hdue
  completes := by
    have hcompletes := hlevel.completes
    rw [hlevel.payloadOwed_eq] at hcompletes
    have hentered := hcompletes.header hheader
    rw [← hopens.payload, ← hopens.elements] at hentered
    exact hentered

theorem bytes (hlevel : Level options 0 text (top :: outer) count)
    (hkind : top.kind.holdsBytes = true) {content : Bytes}
    (hlength : content.length ≤ top.remaining) :
    Level options 0 (text ++ content)
      ({ top with remaining := top.remaining - content.length } :: outer) count where
  counted := fun frame hframe => by
    rcases List.mem_cons.mp hframe with rfl | hframe
    · exact hlevel.counted top List.mem_cons_self
    · exact hlevel.counted frame (List.mem_cons_of_mem _ hframe)
  outer := hlevel.outer
  top := fun hdue => absurd rfl hdue
  completes := by
    have hcompletes := hlevel.completes
    simp only [payloadOwed, elementsOwed, Frame.payloadOwed, Frame.elementsOwed, hkind,
      if_true] at hcompletes ⊢
    rw [show top.remaining = content.length + (top.remaining - content.length) by omega]
      at hcompletes
    exact hcompletes.bytes

theorem leave (hlevel : Level options 0 text (top :: outer) count)
    (hremaining : top.remaining = 0) : Level options 0 text outer count where
  counted := fun frame hframe => hlevel.counted frame (List.mem_cons_of_mem _ hframe)
  outer := fun frame hframe => hlevel.outer frame (List.mem_of_mem_tail hframe)
  top := fun hdue => absurd rfl hdue
  completes := by
    have hcompletes := hlevel.completes
    have hinner : payloadOwed outer = 0 := by
      cases outer with
      | nil => rfl
      | cons next rest =>
          simp [payloadOwed, Frame.payloadOwed, hlevel.outer next List.mem_cons_self]
    rw [hinner]
    simpa [payloadOwed, elementsOwed, Frame.payloadOwed, Frame.elementsOwed, hremaining]
      using hcompletes

end Level

/-- The frames and layers of a draft level by level: an open-ended frame and a layer for each
build, and between them the counted compounds opened at one level. The outermost text follows
what was there before. -/
inductive Upright (options : TagOptions) (before : Bytes) :
    Nat → List Frame → List Layer → Bytes → Nat → Prop
  | outermost {due : Nat} {block : List Frame} {text written : Bytes} {roots : Nat}
      (htext : text = before ++ written) (hlevel : Level options due written block roots) :
      Upright options before due block [] text roots
  | build {due : Nat} {block frames : List Frame} {frame : Frame} {layer : Layer}
      {layers : List Layer} {text : Bytes} {roots : Nat}
      (hlevel : Level options due layer.text block layer.count)
      (hnested : layer.nested = block.length) (hended : frame.openEnded = true)
      (hremaining : frame.remaining = 0)
      (houter : Upright options before 1 frames layers text roots) :
      Upright options before due (block ++ frame :: frames) (layer :: layers) text roots

structure Draft.Balanced (options : TagOptions) (before : Bytes) (due roots : Nat)
    (draft : Draft) : Prop where
  enabled : draft.nesting.enabled = true
  upright : Upright options before due draft.nesting.frames draft.layers draft.text roots

namespace Draft.Balanced

variable {options : TagOptions} {before : Bytes} {roots : Nat} {draft : Draft} {nesting : Nesting}

private theorem extended {text written : Bytes} (htext : text = before ++ written)
    (bytes : Bytes) : text ++ bytes = before ++ (written ++ bytes) := by
  rw [htext, List.append_assoc]

theorem element (hbalanced : draft.Balanced options before 0 roots)
    (helement : draft.nesting.element = .ok nesting) :
    Balanced options before 1 (roots + if draft.nesting.frames = [] then 1 else 0)
      { draft with nesting, layers := Layer.countValue draft.layers } := by
  obtain ⟨⟨frames, enabled, limit⟩, layers, text⟩ := draft
  obtain ⟨henabled, hupright⟩ := hbalanced
  have hcases := Nesting.element_eq_ok henabled helement
  simp only at hupright hcases henabled
  cases hupright with
  | outermost htext hlevel =>
      cases frames with
      | nil =>
          rcases hcases with ⟨-, rfl⟩ | ⟨top, outer, hframes, -⟩
          · exact ⟨henabled, .outermost htext hlevel.another⟩
          · cases hframes
      | cons top outer =>
          rcases hcases with ⟨hframes, -⟩ | ⟨_, _, hframes, hkind, hcounted⟩
          · cases hframes
          · cases hframes
            rcases hcounted with ⟨hended, -⟩ | ⟨-, hremaining, rfl⟩
            · rw [hlevel.counted top List.mem_cons_self] at hended
              cases hended
            · exact ⟨henabled, .outermost htext (hlevel.element hkind hremaining)⟩
  | @build _ block _ frame layer _ _ _ hlevel hnested hopen hzero houter =>
      cases block with
      | nil =>
          rcases hcases with ⟨hframes, -⟩ | ⟨_, _, hframes, hkind, hcounted⟩
          · cases hframes
          · cases hframes
            rcases hcounted with ⟨-, rfl⟩ | ⟨hended, -⟩
            · refine ⟨henabled, ?_⟩
              simp only [Layer.countValue, hnested, List.length_nil, if_true]
              exact .build hlevel.another rfl hopen hzero houter
            · rw [hopen] at hended
              cases hended
      | cons top outer =>
          rcases hcases with ⟨hframes, -⟩ | ⟨_, _, hframes, hkind, hcounted⟩
          · cases hframes
          · cases hframes
            rcases hcounted with ⟨hended, -⟩ | ⟨-, hremaining, rfl⟩
            · rw [hlevel.counted top List.mem_cons_self] at hended
              cases hended
            · refine ⟨henabled, ?_⟩
              simp only [Layer.countValue, hnested, List.length_cons, Nat.add_one_ne_zero,
                if_false]
              exact .build (hlevel.element hkind hremaining) hnested hopen hzero houter

theorem message (hbalanced : draft.Balanced options before 1 roots) {bytes : Bytes}
    (hmessage : Messages options 1 bytes) :
    Balanced options before 0 roots (draft.append bytes) := by
  obtain ⟨⟨frames, enabled, limit⟩, layers, text⟩ := draft
  obtain ⟨henabled, hupright⟩ := hbalanced
  simp only at henabled hupright
  cases hupright with
  | outermost htext hlevel =>
      exact ⟨henabled, .outermost (extended htext _) (hlevel.message hmessage)⟩
  | build hlevel hnested hopen hzero houter =>
      exact ⟨henabled, .build (hlevel.message hmessage) hnested hopen hzero houter⟩

theorem enter (hbalanced : draft.Balanced options before 1 roots) {header : Bytes} {tag : Tag}
    {top : Frame} (hheader : Header.decode options header = .ok (tag, header.length))
    (hopened : top.Opened tag) :
    Balanced options before 0 roots ({ draft with
      nesting := { draft.nesting with frames := top :: draft.nesting.frames }
      layers := Layer.openCounted draft.layers }.append header) := by
  obtain ⟨⟨frames, enabled, limit⟩, layers, text⟩ := draft
  obtain ⟨henabled, hupright⟩ := hbalanced
  simp only at henabled hupright
  cases hupright with
  | outermost htext hlevel =>
      exact ⟨henabled, .outermost (extended htext _) (hlevel.enter hheader hopened)⟩
  | @build _ block frames frame layer layers _ _ hlevel hnested hopen hzero houter =>
      have hbuild : Upright options before 0 (top :: block ++ frame :: frames)
          ({ layer with nested := layer.nested + 1, text := layer.text ++ header } :: layers)
          text roots :=
        .build (hlevel.enter hheader hopened) (congrArg (· + 1) hnested) hopen hzero houter
      exact ⟨henabled, hbuild⟩

theorem bytes (hbalanced : draft.Balanced options before 0 roots) {content : Bytes}
    (hbytes : draft.nesting.bytes content.length = .ok nesting) :
    Balanced options before 0 roots ({ draft with nesting }.append content) := by
  obtain ⟨⟨frames, enabled, limit⟩, layers, text⟩ := draft
  obtain ⟨henabled, hupright⟩ := hbalanced
  have hcases := Nesting.bytes_eq_ok henabled hbytes
  simp only at henabled hupright hcases
  cases hupright with
  | outermost htext hlevel =>
      obtain ⟨top, outer, rfl, hkind, hlength, rfl⟩ := hcases
      exact ⟨henabled, .outermost (extended htext _) (hlevel.bytes hkind hlength)⟩
  | @build _ block frames frame layer layers _ _ hlevel hnested hopen hzero houter =>
      obtain ⟨top, outer, hframes, hkind, hlength, rfl⟩ := hcases
      cases block with
      | nil =>
          -- Only an empty payload goes to a build of bytes.
          cases hframes
          have hempty : content = [] := List.eq_nil_of_length_eq_zero (by omega)
          subst hempty
          refine ⟨henabled, ?_⟩
          simp only [append, List.append_nil, List.length_nil, Nat.sub_zero]
          exact .build hlevel hnested hopen hzero houter
      | cons next rest =>
          cases hframes
          have hbuild : Upright options before 0
              ({ top with remaining := top.remaining - content.length } :: rest ++ frame :: frames)
              ({ layer with text := layer.text ++ content } :: layers) text roots :=
            .build (hlevel.bytes hkind hlength) hnested hopen hzero houter
          exact ⟨henabled, hbuild⟩

theorem begin (hbalanced : draft.Balanced options before 1 roots) (kind : Compound) :
    Balanced options before 0 roots { draft with
      nesting := { draft.nesting with
        frames := { kind, remaining := 0, openEnded := true } :: draft.nesting.frames }
      layers := { kind } :: draft.layers } :=
  have hbuild : Upright options before 0
      ([] ++ { kind, remaining := 0, openEnded := true } :: draft.nesting.frames)
      ({ kind } :: draft.layers) draft.text roots :=
    .build .fresh rfl rfl rfl hbalanced.upright
  ⟨hbalanced.enabled, hbuild⟩

theorem close (hbalanced : draft.Balanced options before 0 roots) {kind : Compound}
    {layers : List Layer} (hlayers : draft.layers = Layer.openCounted layers)
    (hleave : draft.nesting.leave kind = .ok nesting) :
    Balanced options before 0 roots { draft with nesting, layers } := by
  obtain ⟨⟨frames, enabled, limit⟩, opened, text⟩ := draft
  obtain ⟨henabled, hupright⟩ := hbalanced
  obtain ⟨top, outer, hframes, -, hremaining, rfl⟩ := Nesting.leave_eq_ok henabled hleave
  simp only at henabled hupright hlayers hframes
  cases hupright with
  | outermost htext hlevel =>
      cases layers with
      | cons layer layers => cases hlayers
      | nil =>
          subst hframes
          exact ⟨henabled, .outermost htext (hlevel.leave hremaining)⟩
  | @build _ block _ frame _ _ _ _ hlevel hnested hopen hzero houter =>
      cases layers with
      | nil => cases hlayers
      | cons layer layers =>
          cases hlayers
          cases block with
          | nil => cases hnested
          | cons next rest =>
              cases hframes
              exact ⟨henabled,
                .build (hlevel.leave hremaining) (Nat.succ.inj hnested) hopen hzero houter⟩

/-- A build is one message of the level around it. -/
theorem fold (hbalanced : draft.Balanced options before 0 roots) {kind : Compound} {top : Layer}
    {outer : List Layer} {header : Bytes} (hlayers : draft.layers = top :: outer)
    (hnested : top.nested = 0) (hleave : draft.nesting.leave kind = .ok nesting)
    (hmessage : Messages options top.count top.text →
      Messages options 1 (header ++ top.text)) :
    Balanced options before 0 roots
      ({ draft with nesting, layers := outer }.append (header ++ top.text)) := by
  obtain ⟨⟨frames, enabled, limit⟩, layers, text⟩ := draft
  obtain ⟨henabled, hupright⟩ := hbalanced
  simp only at henabled hupright hlayers
  cases hupright with
  | outermost htext hlevel => cases hlayers
  | @build _ block _ frame layer layers _ _ hlevel hlength hopen hzero houter =>
      cases hlayers
      cases block with
      | cons next rest => simp [hlength] at hnested
      | nil =>
          obtain ⟨_, _, hframes, -, -, rfl⟩ := Nesting.leave_eq_ok henabled hleave
          cases hframes
          exact message ⟨henabled, houter⟩ (hmessage hlevel.messages)

end Draft.Balanced
end MessagePack
