import MessagePack.Proofs.Config
import MessagePack.Tree.Arena

/-!
Slots of an arena. What is in a slot stays there until the slot is filled; a new run takes
slots that nothing else has. It is refused only where a page would be too large.
-/

namespace MessagePack
namespace Arena

variable {arena before after : Arena} {id other first : NodeId} {node found : NodeData}
  {n k page capacity : Nat}

def slot? (arena : Arena) (id : NodeId) : Option NodeData :=
  arena.pages[id.page]?.bind fun page => page.nodes[id.index]?

theorem get_of_slot (hslot : arena.slot? id = some node) : arena.get id = node := by
  obtain ⟨page, hpage, hnode⟩ := Option.bind_eq_some_iff.mp hslot
  simp [get, pageAt, hpage, hnode]

theorem slot_set_same (hslot : arena.slot? id = some found) :
    (arena.set id node).slot? id = some node := by
  obtain ⟨page, hpage, hfound⟩ := Option.bind_eq_some_iff.mp hslot
  obtain ⟨hindex, -⟩ := Array.getElem?_eq_some_iff.mp hfound
  simp [slot?, set, Array.getElem?_modify, hpage, hindex]

theorem slot_set_other (hne : other ≠ id) :
    (arena.set id node).slot? other = arena.slot? other := by
  obtain ⟨page, index⟩ := id
  obtain ⟨otherPage, otherIndex⟩ := other
  by_cases hpage : page = otherPage
  · have hindex : index ≠ otherIndex := fun hindex => hne (by rw [hpage, hindex])
    subst hpage
    cases hget : arena.pages[page]? <;>
      simp [slot?, set, Array.getElem?_modify, hget, Array.getElem?_setIfInBounds_ne hindex]
  · simp [slot?, set, Array.getElem?_modify, hpage]

theorem slot_set (hslot : arena.slot? other = some found) :
    ∃ now, (arena.set id node).slot? other = some now := by
  by_cases hsame : other = id
  · subst hsame
    exact ⟨node, slot_set_same hslot⟩
  · exact ⟨found, by rw [slot_set_other hsame, hslot]⟩

/-- With a page at the end that nothing is taken from yet, and a page to take runs from. -/
def withPage (capacity : Nat) (current? : Option Nat) (arena : Arena) : Arena :=
  { arena with pages := arena.pages.push { capacity }, current? }

theorem slot_withPage {current? : Option Nat} :
    (arena.withPage capacity current?).slot? id = arena.slot? id := by
  simp only [slot?, withPage, Array.getElem?_push]
  split
  · next hpage => simp [hpage]
  · rfl

/-- The later arena has `n` more slots, from the first one on. -/
structure Extends (n : Nat) (before : Arena) (first : NodeId) (after : Arena) : Prop where
  kept : ∀ {id node}, before.slot? id = some node → after.slot? id = some node
  fresh : ∀ {k}, k < n → before.slot? (first.offset k) = none
  filled : ∀ {k}, k < n → after.slot? (first.offset k) = some .empty
  count : after.count = before.count + n
  pageNodes : after.pageNodes = before.pageNodes

theorem Extends.none (arena : Arena) (first : NodeId) : Extends 0 arena first arena :=
  ⟨fun hslot => hslot, fun hk => absurd hk (Nat.not_lt_zero _),
    fun hk => absurd hk (Nat.not_lt_zero _), rfl, rfl⟩

theorem size_appended (nodes : Array NodeData) (n : Nat) :
    (nodes ++ List.replicate n NodeData.empty).size = nodes.size + n := by
  rw [← Array.length_toList, Array.toList_appendList, List.length_append, Array.length_toList,
    List.length_replicate]

theorem getElem?_appended_old {nodes : Array NodeData} {index : Nat} (hindex : index < nodes.size)
    (n : Nat) : (nodes ++ List.replicate n NodeData.empty)[index]? = nodes[index]? := by
  rw [← Array.getElem?_toList, Array.toList_appendList, List.getElem?_append_left hindex,
    Array.getElem?_toList]

theorem getElem?_appended_new (nodes : Array NodeData) (hk : k < n) :
    (nodes ++ List.replicate n NodeData.empty)[nodes.size + k]? = some .empty := by
  rw [← Array.getElem?_toList, Array.toList_appendList, ← Array.length_toList,
    List.getElem?_append_right (Nat.le_add_right _ _), Nat.add_sub_cancel_left,
    List.getElem?_replicate_of_lt hk]

theorem fill_extends (hpage : page < arena.pages.size) (n : Nat) :
    Extends n arena (fill page n arena).1 (fill page n arena).2 := by
  have hget : arena.pages[page]? = some (arena.pageAt page) := by
    simp [pageAt, hpage]
  refine ⟨?_, ?_, ?_, rfl, rfl⟩
  · intro id node hslot
    obtain ⟨found, hfound, hnode⟩ := Option.bind_eq_some_iff.mp hslot
    obtain ⟨hindex, -⟩ := Array.getElem?_eq_some_iff.mp hnode
    by_cases hsame : page = id.page
    · simp only [slot?, fill, Array.getElem?_modify, hsame, hfound, if_true, Option.map_some,
        Option.bind_some]
      rw [getElem?_appended_old hindex, hnode]
    · simp [slot?, fill, Array.getElem?_modify, hsame, hfound, hnode]
  · intro k _
    simp [slot?, fill, NodeId.offset, hget]
  · intro k hk
    simp only [slot?, fill, NodeId.offset, Array.getElem?_modify, hget, if_true, Option.map_some,
      Option.bind_some]
    exact getElem?_appended_new _ hk

theorem Extends.of_withPage {current? : Option Nat}
    (hextends : Extends n (arena.withPage capacity current?) first after) :
    Extends n arena first after := by
  refine ⟨fun hfound => hextends.kept ?_, fun hk => ?_, hextends.filled, hextends.count,
    hextends.pageNodes⟩
  · rw [slot_withPage, hfound]
  · rw [← slot_withPage, hextends.fresh hk]

/-! Taking a run, and what it takes for one. -/

theorem addPage_eq_ok (hadd : arena.addPage capacity = .ok after) :
    capacity * nodeSize ≤ maxReserve ∧ after = arena.withPage capacity arena.current? := by
  obtain ⟨_, hreserve, hpure⟩ := bind_eq_ok hadd
  cases hpure
  exact ⟨reserve_eq_ok hreserve, rfl⟩

theorem addPage_ok (hcapacity : capacity * nodeSize ≤ maxReserve) :
    arena.addPage capacity = .ok (arena.withPage capacity arena.current?) := by
  rw [addPage, reserve_ok hcapacity]
  rfl

/-- A run is taken from a page that has room for it, or from a new one. -/
theorem allocate_cases (hn : 0 < n) (hallocate : arena.allocate n = .ok (first, after)) :
    (∃ page < arena.pages.size, arena.hasRoom page n = true ∧
      fill page n arena = (first, after)) ∨
    ∃ capacity current?, n ≤ capacity ∧ capacity ≤ max n arena.pageNodes ∧
      capacity * nodeSize ≤ maxReserve ∧
      fill arena.pages.size n (arena.withPage capacity current?) = (first, after) := by
  unfold allocate at hallocate
  split at hallocate
  · obtain ⟨added, hadd, hpure⟩ := bind_eq_ok hallocate
    obtain ⟨hcapacity, rfl⟩ := addPage_eq_ok hadd
    exact .inr ⟨n, arena.current?, Nat.le_refl n, Nat.le_max_left _ _, hcapacity,
      Except.ok.inj hpure⟩
  · next hregular =>
      split at hallocate
      · next page hcurrent =>
          obtain ⟨-, hroom⟩ := Option.filter_eq_some_iff.mp hcurrent
          refine .inl ⟨page, Nat.lt_of_not_le fun hpage => ?_, hroom, Except.ok.inj hallocate⟩
          -- a page that does not exist has no room
          have hnone : arena.pages[page]? = none := Array.getElem?_eq_none hpage
          simp [hasRoom, pageAt, hnone] at hroom
          omega
      · obtain ⟨added, hadd, hpure⟩ := bind_eq_ok hallocate
        obtain ⟨hcapacity, rfl⟩ := addPage_eq_ok hadd
        exact .inr ⟨arena.pageNodes, some arena.pages.size, Nat.le_of_not_lt hregular,
          Nat.le_max_right _ _, hcapacity, Except.ok.inj hpure⟩

/-- A regular page is not refused. -/
def Granted (arena : Arena) : Prop :=
  arena.pageNodes * nodeSize ≤ maxReserve

instance (arena : Arena) : Decidable arena.Granted :=
  inferInstanceAs (Decidable (_ ≤ _))

theorem Extends.granted (hextends : Extends n before first after) (hgranted : before.Granted) :
    after.Granted := by
  rw [Granted, hextends.pageNodes]
  exact hgranted

theorem allocate_ok (hgranted : arena.Granted) (hn : n * nodeSize ≤ maxReserve) :
    ∃ first after, arena.allocate n = .ok (first, after) := by
  unfold allocate
  split
  · rw [addPage_ok hn]
    exact ⟨_, _, rfl⟩
  · split
    · exact ⟨_, _, rfl⟩
    · rw [addPage_ok hgranted]
      exact ⟨_, _, rfl⟩

theorem allocate_refused {error : Error} (hallocate : arena.allocate n = .error error) :
    ∃ requested, error = .resource requested := by
  have hadd : ∀ {capacity : Nat} (next : Arena → NodeId × Arena),
      (arena.addPage capacity >>= fun added => pure (next added)) = .error error →
        ∃ requested, error = .resource requested := by
    intro capacity next hfail
    cases hreserve : reserve capacity nodeSize with
    | ok done => simp [addPage, hreserve, bind, Except.bind, pure, Except.pure] at hfail
    | error refused =>
        rw [addPage, hreserve] at hfail
        cases hfail
        exact reserve_refused hreserve
  unfold allocate at hallocate
  split at hallocate
  · exact hadd _ hallocate
  · split at hallocate
    · cases hallocate
    · exact hadd (fun added =>
        fill arena.pages.size n { added with current? := some arena.pages.size }) hallocate

/-- No page is there at first, so a regular one is needed at once. -/
theorem allocate_ofPageBytes_iff {bytes : Nat} :
    (∃ first after, (ofPageBytes bytes).allocate 1 = .ok (first, after)) ↔
      (ofPageBytes bytes).Granted := by
  have hregular : ¬(ofPageBytes bytes).pageNodes < 1 := Nat.not_lt.mpr (Nat.le_max_left _ _)
  refine ⟨?_, fun hgranted => allocate_ok hgranted (by decide)⟩
  rintro ⟨first, after, hallocate⟩
  rw [allocate, if_neg hregular] at hallocate
  obtain ⟨added, hadd, -⟩ := bind_eq_ok hallocate
  exact (addPage_eq_ok hadd).1

theorem allocate_extends (hn : 0 < n) (hallocate : arena.allocate n = .ok (first, after)) :
    Extends n arena first after := by
  rcases allocate_cases hn hallocate with
    ⟨page, hpage, -, hfill⟩ | ⟨capacity, current?, -, -, -, hfill⟩
  · cases hfill
    exact fill_extends hpage n
  · cases hfill
    exact (fill_extends (by simp [withPage]) n).of_withPage

/-! Nothing but the run becomes a slot. -/

theorem slot_of_fill (hslot : (fill page n arena).2.slot? id = some node) :
    arena.slot? id = some node ∨ ∃ k < n, id = (fill page n arena).1.offset k := by
  obtain ⟨found, hfound, hnode⟩ := Option.bind_eq_some_iff.mp hslot
  simp only [fill, Array.getElem?_modify] at hfound
  split at hfound
  · next hsame =>
      obtain ⟨held, hheld, rfl⟩ := Option.map_eq_some_iff.mp hfound
      by_cases hold : id.index < held.nodes.size
      · left
        rw [getElem?_appended_old hold] at hnode
        exact Option.bind_eq_some_iff.mpr ⟨held, hheld, hnode⟩
      · right
        obtain ⟨hindex, -⟩ := Array.getElem?_eq_some_iff.mp hnode
        rw [size_appended] at hindex
        have hfirst : (arena.pageAt page).nodes.size = held.nodes.size := by
          simp [pageAt, hsame, hheld]
        refine ⟨id.index - held.nodes.size, by omega, ?_⟩
        obtain ⟨number, index⟩ := id
        simp only [fill, NodeId.offset, NodeId.mk.injEq, hfirst]
        simp only at hsame hold
        omega
  · left
    exact Option.bind_eq_some_iff.mpr ⟨found, hfound, hnode⟩

theorem slot_of_allocate (hn : 0 < n) (hallocate : arena.allocate n = .ok (first, after))
    (hslot : after.slot? id = some node) :
    arena.slot? id = some node ∨ ∃ k < n, id = first.offset k := by
  rcases allocate_cases hn hallocate with ⟨page, -, -, hfill⟩ | ⟨capacity, current?, -, -, -, hfill⟩
  · cases hfill
    exact slot_of_fill hslot
  · cases hfill
    rw [← @slot_withPage arena id capacity current?]
    exact slot_of_fill hslot

end Arena
end MessagePack
