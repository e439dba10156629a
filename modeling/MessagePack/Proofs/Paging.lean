import MessagePack.Proofs.Limits

/-!
Room in the pages of an arena. No page holds more than it has room for, and a parse starts no more
pages than it has read bytes; so the ids of slots stay small, also the one behind a run.
-/

namespace MessagePack
namespace Arena

variable {arena after : Arena} {limit n page capacity : Nat} {id first : NodeId}
  {node : NodeData}

/-- No page holds more than it has room for, and none has more room than this. -/
structure Sized (limit : Nat) (arena : Arena) : Prop where
  regular : arena.pageNodes ≤ limit
  full : ∀ {index : Nat} {page : Page}, arena.pages[index]? = some page →
    page.nodes.size ≤ page.capacity
  room : ∀ {index : Nat} {page : Page}, arena.pages[index]? = some page → page.capacity ≤ limit

theorem Sized.slot (hsized : arena.Sized limit) (hslot : arena.slot? id = some node) :
    id.page < arena.pages.size ∧ ∃ page, arena.pages[id.page]? = some page ∧
      id.index < page.nodes.size ∧ page.nodes.size ≤ limit := by
  obtain ⟨page, hpage, hnode⟩ := Option.bind_eq_some_iff.mp hslot
  obtain ⟨hbefore, -⟩ := Array.getElem?_eq_some_iff.mp hpage
  obtain ⟨hindex, -⟩ := Array.getElem?_eq_some_iff.mp hnode
  exact ⟨hbefore, page, hpage, hindex, Nat.le_trans (hsized.full hpage) (hsized.room hpage)⟩

/-- Changing one page keeps the arena within its room, if it keeps that page within its own. -/
theorem Sized.modify (hsized : arena.Sized limit) (page count : Nat) (change : Page → Page)
    (hroom : ∀ held, (change held).capacity = held.capacity)
    (hfull : ∀ held, arena.pages[page]? = some held →
      (change held).nodes.size ≤ held.capacity) :
    Sized limit { arena with pages := arena.pages.modify page change, count } := by
  have hfound : ∀ {index : Nat} {found : Page},
      (arena.pages.modify page change)[index]? = some found →
      arena.pages[index]? = some found ∨
        ∃ held, index = page ∧ arena.pages[index]? = some held ∧ found = change held := by
    intro index found hfound
    rw [Array.getElem?_modify] at hfound
    split at hfound
    · next hsame =>
        obtain ⟨held, hheld, hchange⟩ := Option.map_eq_some_iff.mp hfound
        exact .inr ⟨held, hsame.symm, hheld, hchange.symm⟩
    · exact .inl hfound
  refine ⟨hsized.regular, fun hpage => ?_, fun hpage => ?_⟩
  · rcases hfound hpage with hold | ⟨held, rfl, hheld, rfl⟩
    · exact hsized.full hold
    · rw [hroom]
      exact hfull held hheld
  · rcases hfound hpage with hold | ⟨held, rfl, hheld, rfl⟩
    · exact hsized.room hold
    · rw [hroom]
      exact hsized.room hheld

theorem Sized.set (hsized : arena.Sized limit) (id : NodeId) (node : NodeData) :
    (arena.set id node).Sized limit := by
  refine hsized.modify id.page arena.count _ (fun _ => rfl) fun held hheld => ?_
  simp only [Array.size_setIfInBounds]
  exact hsized.full hheld

theorem Sized.withPage (hsized : arena.Sized limit) (hcapacity : capacity ≤ limit)
    (current? : Option Nat) : (arena.withPage capacity current?).Sized limit := by
  refine ⟨hsized.regular, fun {index page} hpage => ?_, fun {index page} hpage => ?_⟩
  all_goals
    simp only [Arena.withPage, Array.getElem?_push] at hpage
    split at hpage
  · cases hpage
    exact Nat.zero_le _
  · exact hsized.full hpage
  · cases hpage
    exact hcapacity
  · exact hsized.room hpage

theorem Sized.fill (hsized : arena.Sized limit)
    (hroom : ∀ held, arena.pages[page]? = some held → held.nodes.size + n ≤ held.capacity) :
    (arena.fill page n).2.Sized limit := by
  refine hsized.modify page (arena.count + n) _ (fun _ => rfl) fun held hheld => ?_
  rw [size_appended]
  exact hroom held hheld

theorem Sized.fill_withPage (hsized : arena.Sized limit) (hn : n ≤ capacity)
    (hcapacity : capacity ≤ limit) (current? : Option Nat) :
    (Arena.fill arena.pages.size n (arena.withPage capacity current?)).2.Sized limit := by
  refine (hsized.withPage hcapacity current?).fill fun held hheld => ?_
  simp only [Arena.withPage, Array.getElem?_push, if_true] at hheld
  cases hheld
  rw [Array.size_empty, Nat.zero_add]
  exact hn

theorem Sized.allocate (hsized : arena.Sized limit) (hpos : 0 < n) (hn : n ≤ limit)
    (hallocate : arena.allocate n = .ok (first, after)) : after.Sized limit := by
  rcases allocate_cases hpos hallocate with
    ⟨page, -, hroom, hfill⟩ | ⟨capacity, current?, hcapacity, hmost, -, hfill⟩
  · have hfilled : (arena.fill page n).2.Sized limit := by
      refine hsized.fill fun held hheld => ?_
      simp only [hasRoom, pageAt, Array.getD_eq_getD_getElem?, hheld, Option.getD_some,
        decide_eq_true_eq] at hroom
      omega
    rwa [hfill] at hfilled
  · have hlimit : capacity ≤ limit := Nat.le_trans hmost (Nat.max_le.mpr ⟨hn, hsized.regular⟩)
    have hfilled := hsized.fill_withPage hcapacity hlimit current?
    rwa [hfill] at hfilled

theorem size_pages_allocate (hpos : 0 < n) (hallocate : arena.allocate n = .ok (first, after)) :
    arena.pages.size ≤ after.pages.size ∧ after.pages.size ≤ arena.pages.size + 1 := by
  rcases allocate_cases hpos hallocate with
    ⟨page, -, -, hfill⟩ | ⟨capacity, current?, -, -, -, hfill⟩
  all_goals
    cases hfill
    simp [Arena.withPage]

theorem size_pages_set (arena : Arena) (id : NodeId) (node : NodeData) :
    (arena.set id node).pages.size = arena.pages.size :=
  Array.size_modify

/-- A run ends within the room of its page. -/
theorem Sized.run (hsized : arena.Sized limit) (hpos : 0 < n) (hn : n ≤ limit)
    (hallocate : arena.allocate n = .ok (first, after)) :
    first.page < after.pages.size ∧ first.index + n ≤ limit := by
  have hlast : n - 1 < n := Nat.sub_lt hpos Nat.one_pos
  have hextends := allocate_extends hpos hallocate
  obtain ⟨hpage, page, -, hindex, hroom⟩ :=
    (hsized.allocate hpos hn hallocate).slot (hextends.filled hlast)
  refine ⟨hpage, ?_⟩
  simp only [NodeId.offset] at hindex
  omega

theorem sized_ofPageBytes {bytes : Nat} (hlimit : (ofPageBytes bytes).pageNodes ≤ limit) :
    (ofPageBytes bytes).Sized limit := by
  refine ⟨hlimit, fun {index page} hpage => ?_, fun {index page} hpage => ?_⟩
  all_goals exact absurd hpage (by simp [ofPageBytes])

end Arena

namespace Tree.Progress

variable {options : TagOptions} {limits : Limits} {progress after start : Progress}
  {id : NodeId} {depth limit : Nat}

/-- What a parse comes to, step by step. -/
inductive Reaches (options : TagOptions) (limits : Limits) (start : Progress) : Progress → Prop
  | start : Reaches options limits start start
  | step {progress after : Progress} (hreaches : Reaches options limits start progress)
      (hstep : progress.step options limits = .ok after) : Reaches options limits start after

/-- What a parse of these bytes comes to on its way, once it has the room to start. -/
def UnderWay (config : Config) (maxDepth : Nat) (bytes : Bytes) (progress : Progress) : Prop :=
  ∃ root start, initial config bytes = .ok (root, start) ∧
    Reaches config.tagOptions (.of config maxDepth) start progress

theorem run_reaches {done : Progress} (hreaches : Reaches options limits start progress)
    (hrun : progress.run options limits = .ok done) : Reaches options limits start done := by
  fun_induction run options limits progress with
  | case1 progress hlevels =>
      cases hrun
      exact hreaches
  | case2 progress hlevels after hstep ih => exact ih (hreaches.step hstep) hrun
  | case3 progress hlevels error hstep => cases hrun

/-- An element that is read takes a run of slots or none, and there are bytes for all of it. -/
theorem readElement_run (hread : progress.readElement options limits id depth = .ok after) :
    ∃ node, (after.arena = progress.arena.set id node ∧ after.levels = progress.levels) ∨
      ∃ n first arena, 0 < n ∧ n < progress.rest.length ∧
        progress.arena.allocate n = .ok (first, arena) ∧ after.arena = arena.set id node ∧
        after.levels = { next := first, left := n, depth := depth + 1 } :: progress.levels := by
  obtain ⟨⟨tag, size⟩, hdecode, hread⟩ := bind_eq_ok hread
  have hsize := Header.decode_size_pos hdecode
  obtain ⟨body, hbody, hread⟩ := bind_eq_ok hread
  obtain ⟨-, rfl⟩ := advance_eq_ok hbody
  split at hread
  · obtain ⟨_, -, hread⟩ := bind_eq_ok hread
    obtain ⟨payload, hpayload, hread⟩ := bind_eq_ok hread
    obtain ⟨-, rfl⟩ := advance_eq_ok hpayload
    cases hread
    exact ⟨_, .inl ⟨rfl, rfl⟩⟩
  · next count hlength hcount =>
      obtain ⟨⟨children?, opened⟩, hopen, hread⟩ := bind_eq_ok hread
      cases hread
      obtain ⟨-, ⟨-, -, rfl⟩ | ⟨hpos, henough, -, first, arena, hallocate, -, rfl⟩⟩ :=
        openRun_cases hopen
      · exact ⟨_, .inl ⟨rfl, rfl⟩⟩
      · refine ⟨_, .inr ⟨count, first, arena, hpos, ?_, hallocate, rfl, rfl⟩⟩
        rw [List.length_drop] at henough
        omega
  · cases hread
    exact ⟨_, .inl ⟨rfl, rfl⟩⟩

/-- The slots of a parse lie within its pages, and there is a byte left for every page to come. -/
structure Contained (limit : Nat) (progress : Progress) : Prop where
  arena : progress.arena.Sized limit
  pages : progress.arena.pages.size + progress.rest.length ≤ limit + 1
  levels : ∀ level ∈ progress.levels,
    level.next.page < progress.arena.pages.size ∧ level.next.index + level.left ≤ limit

theorem Contained.readElement (hcontained : Contained limit progress)
    (hsome : 0 < progress.arena.pages.size)
    (hread : progress.readElement options limits id depth = .ok after) :
    Contained limit after := by
  have hless := length_rest_readElement hread
  have hpages := hcontained.pages
  obtain ⟨node, ⟨harena, hlevels⟩ | ⟨n, first, arena, hpos, hn, hallocate, harena, hlevels⟩⟩ :=
    readElement_run hread
  · have hsize := Arena.size_pages_set progress.arena id node
    refine ⟨?_, ?_, ?_⟩
    · rw [harena]
      exact hcontained.arena.set id node
    · rw [harena, hsize]
      omega
    · rw [harena, hlevels, hsize]
      exact hcontained.levels
  · have hsize := Arena.size_pages_set arena id node
    obtain ⟨hkept, hgrown⟩ := Arena.size_pages_allocate hpos hallocate
    have hlimit : n ≤ limit := by omega
    refine ⟨?_, ?_, ?_⟩
    · rw [harena]
      exact (hcontained.arena.allocate hpos hlimit hallocate).set id node
    · rw [harena, hsize]
      omega
    · rw [harena, hlevels, hsize]
      intro level hlevel
      rcases List.mem_cons.mp hlevel with rfl | houter
      · exact hcontained.arena.run hpos hlimit hallocate
      · obtain ⟨hpage, hindex⟩ := hcontained.levels level houter
        exact ⟨Nat.lt_of_lt_of_le hpage hkept, hindex⟩

theorem Contained.step (hcontained : Contained limit progress)
    (hstep : progress.step options limits = .ok after) : Contained limit after := by
  unfold Progress.step at hstep
  split at hstep
  · cases hstep
    exact hcontained
  · next level outer hcons =>
      have hlevels := hcontained.levels
      rw [hcons] at hlevels
      obtain ⟨hpage, hindex⟩ := hlevels level (.head _)
      split at hstep
      · cases hstep
        exact ⟨hcontained.arena, hcontained.pages,
          fun other hother => hlevels other (.tail _ hother)⟩
      · have hopened : Contained limit { progress with
            levels := { level with
              next := level.next.offset 1
              left := level.left - 1 } :: outer } := by
          refine ⟨hcontained.arena, hcontained.pages, fun other hother => ?_⟩
          rcases List.mem_cons.mp hother with rfl | houter
          · refine ⟨hpage, ?_⟩
            simp only [NodeId.offset]
            omega
          · exact hlevels other (.tail _ houter)
        exact hopened.readElement (Nat.zero_lt_of_lt hpage) hstep

theorem Reaches.contained (hreaches : Reaches options limits start progress)
    (hstart : Contained limit start) : Contained limit progress := by
  induction hreaches with
  | start => exact hstart
  | step _ hstep ih => exact ih.step hstep

end Tree.Progress
end MessagePack
