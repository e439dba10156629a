import MessagePack.Proofs.Parsing
import MessagePack.Tree.Preorder

/-!
What a parse fills, and in which order. Every slot is filled once; the slots filled are those that
were to be filled and those taken for children on the way, and their order is that of the bytes.
-/

namespace MessagePack

/-- The tags of the headers in a text, read from left to right, with where each header ends.
Payloads are passed over. -/
inductive Header.Series (options : TagOptions) : Nat → Bytes → List (Tag × Nat) → Prop
  | done (position : Nat) : Series options position [] []
  | next {position : Nat} {header payload rest : Bytes} {tag : Tag} {found : List (Tag × Nat)}
      (hdecode : Header.decode options (header ++ (payload ++ rest)) = .ok (tag, header.length))
      (hpayload : payload.length = tag.payloadLength?.getD 0)
      (hrest : Series options (position + header.length + payload.length) rest found) :
      Series options position (header ++ (payload ++ rest))
        ((tag, position + header.length) :: found)

namespace Header.Series

variable {options : TagOptions} {position : Nat} {text : Bytes} {found : List (Tag × Nat)}

theorem length_le (hseries : Series options position text found) :
    found.length ≤ text.length := by
  induction hseries with
  | done => exact Nat.zero_le _
  | next hdecode hpayload hrest ih =>
      have hsize := Header.decode_size_pos hdecode
      simp only [List.length_cons, List.length_append]
      omega

/-- Every payload is there, right behind its header. -/
theorem split (hseries : Series options position text found) {tag : Tag} {start : Nat}
    (hmember : (tag, start) ∈ found) :
    ∃ before header payload behind, text = before ++ (header ++ (payload ++ behind)) ∧
      Header.decode options (header ++ (payload ++ behind)) = .ok (tag, header.length) ∧
      payload.length = tag.payloadLength?.getD 0 ∧
      start = position + before.length + header.length := by
  induction hseries with
  | done => exact absurd hmember List.not_mem_nil
  | @next position header payload rest first found hdecode hpayload hrest ih =>
      rcases List.mem_cons.mp hmember with hfirst | hlater
      · cases hfirst
        exact ⟨[], header, payload, rest, rfl, hdecode, hpayload, rfl⟩
      · obtain ⟨before, other, content, behind, rfl, hother, hcontent, rfl⟩ := ih hlater
        refine ⟨header ++ (payload ++ before), other, content, behind, ?_, hother, hcontent, ?_⟩
        · simp only [List.append_assoc]
        · simp only [List.length_append]
          omega

/-- The last payload ends where the text does. -/
theorem last (hseries : Series options position text found) {tag : Tag} {start : Nat}
    (hlast : found.getLast? = some (tag, start)) :
    start + tag.payloadLength?.getD 0 = position + text.length := by
  induction hseries with
  | done => cases hlast
  | @next position header payload rest first found hdecode hpayload hrest ih =>
      cases hrest with
      | done =>
          cases hlast
          simp only [List.length_append, List.length_nil]
          omega
      | next =>
          rw [List.getLast?_cons_cons] at hlast
          rw [ih hlast]
          simp only [List.length_append]
          omega

end Header.Series

namespace Tree

/-- A node that has been read into its slot, with the nesting of a compound there. -/
structure Filled where
  id : NodeId
  depth : Nat
  node : NodeData

namespace Filled

def slot (filled : Filled) : NodeId × Nat :=
  (filled.id, filled.depth)

def count (filled : Filled) : Nat :=
  filled.node.tag.childCount?.getD 0

/-- The slots of the children. -/
def below (filled : Filled) : List (NodeId × Nat) :=
  slotsFrom (filled.node.children?.getD filled.id) (filled.depth + 1) filled.count

end Filled

namespace Progress

variable {options : TagOptions} {limits : Limits} {progress after done : Progress}
  {trace : List Filled} {filled : Filled} {id : NodeId} {depth : Nat}

/-- What is filled from here to there, in order. -/
inductive Trace (options : TagOptions) : Progress → Progress → List Filled → Prop
  | full {progress : Progress} (hslots : progress.slots = []) : Trace options progress progress []
  | leave {progress done : Progress} {levels : List Level} {trace : List Filled}
      (hslots : slots { progress with levels } = progress.slots)
      (htrace : Trace options { progress with levels } done trace) :
      Trace options progress done trace
  | fill {progress after done : Progress} {levels : List Level} {id : NodeId} {depth : Nat}
      {header payload : Bytes} {node : NodeData} {trace : List Filled}
      (hslots : progress.slots = (id, depth) :: slots { progress with levels })
      (hfills : Fills options id depth header payload node { progress with levels } after)
      (htrace : Trace options after done trace) :
      Trace options progress done ({ id, depth, node } :: trace)

theorem run_trace (hrun : progress.run options limits = .ok done) :
    ∃ trace, Trace options progress done trace := by
  fun_induction run options limits progress with
  | case1 progress hlevels =>
      cases hrun
      exact ⟨[], .full (slots_none hlevels)⟩
  | case2 progress hlevels after hstep ih =>
      obtain ⟨trace, htrace⟩ := ih hrun
      obtain ⟨levels, ⟨rfl, hslots⟩ | ⟨id, depth, header, payload, node, hslots, hfills⟩⟩ :=
        step_eq_ok hlevels hstep
      · exact ⟨trace, .leave hslots htrace⟩
      · exact ⟨_, .fill hslots hfills htrace⟩
  | case3 progress hlevels error hstep => cases hrun

namespace Trace

theorem ids_leave {levels : List Level}
    (hslots : slots { progress with levels } = progress.slots) :
    ids { progress with levels } = progress.ids :=
  congrArg (List.map Prod.fst) hslots

theorem kept {other : NodeId} {found : NodeData} (htrace : Trace options progress done trace)
    (hslot : progress.arena.slot? other = some found) (hother : other ∉ progress.ids) :
    done.arena.slot? other = some found := by
  induction htrace with
  | full => exact hslot
  | leave hslots _ ih => exact ih hslot (by rwa [ids_leave hslots])
  | fill hslots hfills _ ih =>
      rw [ids_first hslots, List.mem_cons, not_or] at hother
      exact ih (hfills.kept hslot hother.1) (hfills.not_mem hslot hother.2)

/-- What has been filled is found in the end as it was filled. -/
theorem held (htrace : Trace options progress done trace)
    (htidy : Tidy progress.ids progress.arena) (hmember : filled ∈ trace) :
    done.arena.slot? filled.id = some filled.node := by
  induction htrace with
  | full => exact absurd hmember List.not_mem_nil
  | leave hslots _ ih => exact ih (by rwa [ids_leave hslots]) hmember
  | fill hslots hfills htrace ih =>
      rw [ids_first hslots] at htidy
      rcases List.mem_cons.mp hmember with rfl | hlater
      · obtain ⟨found, hfound⟩ := htidy.taken _ (.head _)
        exact htrace.kept (hfills.filled hfound)
          (hfills.not_mem hfound (List.nodup_cons.mp htidy.nodup).1)
      · exact ih (hfills.tidy htidy) hlater

/-- Nothing is filled but the slots that are to be filled and new ones. -/
theorem fresh (htrace : Trace options progress done trace) (hmember : filled ∈ trace) :
    filled.id ∈ progress.ids ∨ progress.arena.slot? filled.id = none := by
  induction htrace with
  | full => exact absurd hmember List.not_mem_nil
  | leave hslots _ ih => exact ids_leave hslots ▸ ih hmember
  | @fill progress after done levels id depth header payload node trace hslots hfills _ ih =>
      rw [ids_first hslots, List.mem_cons]
      rcases List.mem_cons.mp hmember with rfl | hlater
      · exact .inl (.inl rfl)
      · by_cases hsame : filled.id = id
        · exact .inl (.inl hsame)
        · rcases ih hlater with hpending | hnone
          · obtain ⟨arena, hextends, -⟩ := hfills.arena
            rw [hfills.ids_eq, List.mem_append] at hpending
            rcases hpending with hchild | houter
            · exact .inr (fresh_of_mem hextends hchild).1
            · exact .inl (.inr houter)
          · refine .inr (Option.eq_none_iff_forall_ne_some.mpr fun found hfound => ?_)
            rw [hfills.kept hfound hsame] at hnone
            cases hnone

theorem nodup (htrace : Trace options progress done trace)
    (htidy : Tidy progress.ids progress.arena) : (trace.map Filled.id).Nodup := by
  induction htrace with
  | full => exact List.nodup_nil
  | leave hslots _ ih => exact ih (by rwa [ids_leave hslots])
  | @fill progress after done levels id depth header payload node trace hslots hfills htrace ih =>
      rw [ids_first hslots] at htidy
      obtain ⟨found, hfound⟩ := htidy.taken _ (.head _)
      refine List.nodup_cons.mpr ⟨fun hmember => ?_, ih (hfills.tidy htidy)⟩
      obtain ⟨filled, hfilled, hsame⟩ := List.mem_map.mp hmember
      have hid : filled.id = id := hsame
      rcases htrace.fresh hfilled with hpending | hnone
      · rw [hid] at hpending
        exact hfills.not_mem hfound (List.nodup_cons.mp htidy.nodup).1 hpending
      · rw [hid, hfills.filled hfound] at hnone
        cases hnone

/-- What is filled was to be filled from the start or is the child of something filled. -/
theorem settled (htrace : Trace options progress done trace) :
    (trace.map Filled.slot).Perm (progress.slots ++ trace.flatMap Filled.below) := by
  induction htrace with
  | full hslots =>
      rw [hslots]
      exact .refl _
  | leave hslots _ ih => exact hslots ▸ ih
  | @fill progress after done levels id depth header payload node trace hslots hfills htrace ih =>
      rw [hslots, List.map_cons, List.flatMap_cons, List.cons_append]
      refine .cons _ (ih.trans ?_)
      rw [hfills.slots, List.append_assoc]
      exact List.perm_append_comm_assoc _ _ _

theorem count (htrace : Trace options progress done trace) :
    done.arena.count + progress.slots.length = progress.arena.count + trace.length := by
  induction htrace with
  | full hslots => rw [hslots]; rfl
  | leave hslots _ ih => exact hslots ▸ ih
  | fill hslots hfills _ ih =>
      obtain ⟨arena, hextends, harena⟩ := hfills.arena
      have hgrown := hextends.count
      have hset : ∀ id node, (arena.set id node).count = arena.count := fun _ _ => rfl
      rw [hfills.slots, harena, hset, List.length_append, length_slotsFrom] at ih
      rw [hslots, List.length_cons, List.length_cons]
      simp only at hgrown
      omega

theorem series (htrace : Trace options progress done trace) :
    ∃ text, progress.rest = text ++ done.rest ∧
      done.position = progress.position + text.length ∧
      Header.Series options progress.position text
        (trace.map fun filled => (filled.node.tag, filled.node.start)) := by
  induction htrace with
  | full => exact ⟨[], rfl, rfl, .done _⟩
  | leave _ _ ih => exact ih
  | @fill progress after done levels id depth header payload node trace hslots hfills htrace ih =>
      obtain ⟨text, hrest, hposition, hseries⟩ := ih
      refine ⟨header ++ (payload ++ text), ?_, ?_, ?_⟩
      · have hread : progress.rest = header ++ (payload ++ after.rest) := hfills.rest
        rw [hread, hrest]
        simp only [List.append_assoc]
      · rw [hposition, hfills.position]
        simp only [List.length_append]
        omega
      · rw [hfills.position] at hseries
        rw [List.map_cons, hfills.start]
        exact .next (Header.decode_append hfills.decoded _) hfills.enclosed hseries

theorem deepest_le (htrace : Trace options progress done trace) :
    progress.deepest ≤ done.deepest := by
  induction htrace with
  | full => exact Nat.le_refl _
  | leave _ _ ih => exact ih
  | fill _ hfills _ ih => exact Nat.le_trans hfills.deepest ih

theorem depth_le (htrace : Trace options progress done trace) (hmember : filled ∈ trace)
    (hcompound : filled.node.tag.childCount? ≠ none) : filled.depth ≤ done.deepest := by
  induction htrace with
  | full => exact absurd hmember List.not_mem_nil
  | leave _ _ ih => exact ih hmember
  | fill _ hfills htrace ih =>
      rcases List.mem_cons.mp hmember with rfl | hlater
      · exact Nat.le_trans (hfills.depth hcompound) htrace.deepest_le
      · exact ih hlater

/-- The deepest nesting is that of some compound. -/
theorem deepest_reached (htrace : Trace options progress done trace) :
    done.deepest = progress.deepest ∨ ∃ filled ∈ trace,
      filled.node.tag.childCount? ≠ none ∧ filled.depth = done.deepest := by
  induction htrace with
  | full => exact .inl rfl
  | leave _ _ ih => exact ih
  | fill _ hfills _ ih =>
      rcases ih with hsame | ⟨filled, hmember, hcompound, hdepth⟩
      · rcases hfills.reached with hkept | ⟨hcompound, hdeepest⟩
        · exact .inl (hsame.trans hkept)
        · exact .inr ⟨_, .head _, hcompound, (hsame.trans hdeepest).symm⟩
      · exact .inr ⟨filled, .tail _ hmember, hcompound, hdepth⟩

/-! The finished tree. -/

variable {tree : Tree}

theorem below_ids (hheld : tree.arena.get filled.id = filled.node) :
    filled.below.map Prod.fst = tree.childrenOf filled.id := by
  have hchild : tree.child filled.id = (filled.node.children?.getD filled.id).offset := by
    funext k
    rw [child, hheld]
  rw [Filled.below, ids_slotsFrom, childrenOf, tagAt, hheld, hchild]
  rfl

/-- Going through the tree passes the nodes in the order in which they were filled. -/
theorem visit (htrace : Trace options progress done trace)
    (hheld : ∀ filled ∈ trace, tree.arena.get filled.id = filled.node) {fuel : Nat}
    (hfuel : trace.length ≤ fuel) (visited : Array NodeId) :
    tree.visit fuel progress.ids visited = visited.toList ++ trace.map Filled.id := by
  induction htrace generalizing fuel visited with
  | full hslots =>
      rw [ids, hslots, List.map_nil, List.map_nil, List.append_nil]
      cases fuel <;> rfl
  | leave hslots _ ih =>
      rw [← ids_leave hslots]
      exact ih hheld hfuel visited
  | @fill progress after done levels id depth header payload node trace hslots hfills htrace ih =>
      obtain ⟨fuel, rfl⟩ := Nat.exists_eq_succ_of_ne_zero (Nat.ne_zero_of_lt hfuel)
      have hchildren : (Filled.mk id depth node).below.map Prod.fst = tree.childrenOf id :=
        below_ids (hheld _ (.head _))
      have hids : after.ids = tree.childrenOf id ++ ids { progress with levels } := by
        rw [ids, hfills.slots, List.map_append, ← hchildren]
        rfl
      rw [ids_first hslots, Tree.visit, ← hids,
        ih (fun other hother => hheld other (.tail _ hother)) (Nat.le_of_succ_le_succ hfuel)]
      simp

end Trace
end Progress
end Tree
end MessagePack
