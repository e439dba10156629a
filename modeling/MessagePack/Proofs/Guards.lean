import MessagePack.Proofs.Slots

/-!
Limits while a parse is under way. Bytes, levels and slots are checked against their limits before
they are taken, so nothing that a parse comes to lies beyond a limit, also if it fails later. Only
the slot of the root is taken unchecked: a limit of no nodes at all is not kept.
-/

namespace MessagePack.Tree
namespace Progress

variable {options : TagOptions} {limits : Limits} {progress after : Progress} {id : NodeId}
  {depth count bytes : Nat} {children? : Option NodeId}

/-- At most a level has come on top, and slots with it; then both are within their limits. -/
structure Grows (limits : Limits) (depth : Nat) (progress after : Progress) : Prop where
  deepest : after.deepest ≤ max progress.deepest limits.maxDepth
  taken : after.levels.length = progress.levels.length ∧
      after.arena.count = progress.arena.count ∨
    depth ≤ limits.maxDepth ∧ after.levels.length = progress.levels.length + 1 ∧
      progress.arena.count ≤ after.arena.count ∧ after.arena.count ≤ limits.maxNodes

theorem openRun_grows (hopen : progress.openRun limits depth count = .ok (children?, after)) :
    Grows limits depth progress after := by
  obtain ⟨hdepth, ⟨-, -, rfl⟩ | ⟨hpos, -, hnodes, first, arena, hallocate, -, rfl⟩⟩ :=
    openRun_cases hopen
  · exact ⟨by simp only; omega, .inl ⟨rfl, rfl⟩⟩
  · have hcount := (Arena.allocate_extends hpos hallocate).count
    exact ⟨by simp only; omega, .inr ⟨hdepth, rfl, by simp only; omega, by simp only; omega⟩⟩

theorem readElement_grows (hread : progress.readElement options limits id depth = .ok after) :
    Grows limits depth progress after := by
  have hsame : progress.deepest ≤ max progress.deepest limits.maxDepth := Nat.le_max_left _ _
  obtain ⟨⟨tag, size⟩, -, hread⟩ := bind_eq_ok hread
  obtain ⟨body, hbody, hread⟩ := bind_eq_ok hread
  obtain ⟨-, rfl⟩ := advance_eq_ok hbody
  split at hread
  · obtain ⟨_, -, hread⟩ := bind_eq_ok hread
    obtain ⟨payload, hpayload, hread⟩ := bind_eq_ok hread
    obtain ⟨-, rfl⟩ := advance_eq_ok hpayload
    cases hread
    exact ⟨hsame, .inl ⟨rfl, rfl⟩⟩
  · obtain ⟨⟨children?, opened⟩, hopen, hread⟩ := bind_eq_ok hread
    cases hread
    have hgrows := openRun_grows hopen
    exact ⟨hgrows.deepest, hgrows.taken⟩
  · cases hread
    exact ⟨hsame, .inl ⟨rfl, rfl⟩⟩

/-- Everything is within its limit, and the root is there whatever the limit on nodes is. -/
structure Guarded (limits : Limits) (progress : Progress) : Prop where
  size : progress.position ≤ limits.maxSize
  levels : progress.levels.length ≤ limits.maxDepth + 1
  deepest : progress.deepest ≤ limits.maxDepth
  root : 1 ≤ progress.arena.count
  nodes : progress.arena.count ≤ max 1 limits.maxNodes

theorem Guarded.step (hguarded : Guarded limits progress) (hspread : Spread bytes progress)
    (hstep : progress.step options limits = .ok after) : Guarded limits after := by
  unfold Progress.step at hstep
  split at hstep
  · cases hstep
    exact hguarded
  · next level outer hcons =>
      have hlevels := hguarded.levels
      rw [hcons, List.length_cons] at hlevels
      split at hstep
      · cases hstep
        exact ⟨hguarded.size, by simp only; omega, hguarded.deepest, hguarded.root, hguarded.nodes⟩
      · -- a level lies one deeper than those around it, so its depth bounds their number
        have hdepth : level.depth = outer.length + 1 := by
          have hpaid := hspread.paid
          rw [hcons] at hpaid
          exact hpaid.1
        have hgrows := readElement_grows hstep
        have hdeepest := hgrows.deepest
        have hreached := hguarded.deepest
        have hroot := hguarded.root
        have hnodes := hguarded.nodes
        have hsize := position_readElement hstep
        simp only at hdeepest
        rcases hgrows.taken with ⟨hsame, hcount⟩ | ⟨hwithin, hmore, hleast, hmost⟩
        · simp only [List.length_cons] at hsame hcount
          exact ⟨hsize, by omega, by omega, by omega, by omega⟩
        · simp only [List.length_cons] at hmore hleast
          exact ⟨hsize, by omega, by omega, by omega, by omega⟩

theorem Reaches.guarded {config : Config} {input : Bytes} {root : NodeId} {start : Progress}
    (hinitial : initial config input = .ok (root, start))
    (hreaches : Reaches options limits start progress) : Guarded limits progress := by
  induction hreaches with
  | start =>
      obtain ⟨arena, rfl, hcount, -, -⟩ := start_of_initial hinitial
      exact ⟨Nat.zero_le _, Nat.le_add_left 1 _, Nat.zero_le _, Nat.le_of_eq hcount.symm,
        Nat.le_trans (Nat.le_of_eq hcount) (Nat.le_max_left 1 _)⟩
  | step hreaches hstep ih => exact ih.step (hreaches.spread hinitial) hstep

end Progress

/-- At every step of a parse, also of one that fails later, no more bytes have been read and no
more levels been opened than allowed, and no more nodes are held unless none are allowed, when
there is the root and no other. So it is for every tree of the front of the bytes, and so for one
of all of them. -/
theorem parse_guarded (config : Config) (maxDepth : Nat) (bytes : Bytes) :
    (∀ progress, Progress.UnderWay config maxDepth bytes progress →
      progress.position ≤ config.maxSize ∧
      progress.levels.length ≤ config.nodeDepthLimit maxDepth + 1 ∧
      (progress.arena.count ≤ config.maxNodes ∨
        config.maxNodes = 0 ∧ progress.arena.count = 1)) ∧
    ∀ tree rest, parseFront config maxDepth bytes = .ok (tree, rest) →
      tree.size ≤ config.maxSize ∧ tree.depth ≤ config.nodeDepthLimit maxDepth ∧
      (tree.nodeCount ≤ config.maxNodes ∨ config.maxNodes = 0 ∧ tree.nodeCount = 1) := by
  have hnodes : ∀ {progress}, Progress.Guarded (.of config maxDepth) progress →
      progress.arena.count ≤ config.maxNodes ∨
        config.maxNodes = 0 ∧ progress.arena.count = 1 := by
    intro progress hguarded
    have hmost : progress.arena.count ≤ max 1 config.maxNodes := hguarded.nodes
    have hroot := hguarded.root
    omega
  refine ⟨?_, fun tree rest hparse => ?_⟩
  · rintro progress ⟨root, start, hinitial, hreaches⟩
    have hguarded := hreaches.guarded hinitial
    exact ⟨hguarded.size, hguarded.levels, hnodes hguarded⟩
  · obtain ⟨-, -, root, start, done, hinitial, hrun, -, rfl⟩ := parseFront_eq_ok hparse
    have hguarded := (Progress.run_reaches .start hrun).guarded hinitial
    refine ⟨?_, hguarded.deepest, hnodes hguarded⟩
    have hread : done.position ≤ config.maxSize := hguarded.size
    simp only [size, List.size_toArray, List.length_take]
    omega

/-- No node at all is allowed, and a tree of one is returned. -/
theorem parse_unguarded :
    Config.Valid { maxNodes := 0 } ∧
      ∃ tree, parse { maxNodes := 0 } [0xc0] = .ok tree ∧ tree.nodeCount = 1 :=
  ⟨by decide, _, by cbv, rfl⟩

end MessagePack.Tree
