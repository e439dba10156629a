import MessagePack.Proofs.Resumption
import MessagePack.Proofs.Trees

/-!
Limits of a tree. A complete message is parsed exactly if it keeps within them; where it does not,
the error is about a limit and nothing else.
-/

namespace MessagePack

/-- The error says that something nests too deep or is too big. -/
inductive Error.OfLimit : Error → Prop
  | tooDeep (depth limit : Nat) : OfLimit (.tooDeep depth limit)
  | tooBig (size limit : Nat) : OfLimit (.tooBig size limit)

namespace Tree

structure Limits.Admits (limits : Limits) (message : Message) : Prop where
  depth : message.depth ≤ limits.maxDepth
  size : message.bytes.length ≤ limits.maxSize
  nodes : message.nodes ≤ limits.maxNodes

namespace Progress

variable {options : TagOptions} {limits : Limits} {progress after done : Progress}
  {id : NodeId} {depth count n : Nat} {tag : Tag}

/-- What has been read keeps within the limits. -/
structure Bounded (limits : Limits) (progress : Progress) : Prop where
  size : progress.position ≤ limits.maxSize
  depth : ∀ slot ∈ progress.slots, slot.2 ≤ limits.maxDepth + 1
  nodes : progress.arena.count ≤ limits.maxNodes
  granted : progress.arena.Granted

/-- What has been read does so with another element in it. -/
structure Takes (limits : Limits) (depth size : Nat) (tag : Tag) (progress : Progress) : Prop where
  size : progress.position + size ≤ limits.maxSize
  depth : tag.childCount? ≠ none → depth ≤ limits.maxDepth
  nodes : progress.arena.count + tag.childCount?.getD 0 ≤ limits.maxNodes

theorem advance_error (hsize : limits.maxSize < progress.position + n) :
    ∃ error, progress.advance limits n = .error error ∧ error.OfLimit :=
  ⟨_, if_pos hsize, .tooBig _ _⟩

theorem openRun_error (hchildren : count ≤ progress.rest.length)
    (hcount : progress.arena.count ≤ limits.maxNodes)
    (hnot : ¬(depth ≤ limits.maxDepth ∧ progress.arena.count + count ≤ limits.maxNodes)) :
    ∃ error, progress.openRun limits depth count = .error error ∧ error.OfLimit := by
  have henough : hasAtLeast count progress.rest = true := (hasAtLeast_iff _ _).mpr hchildren
  unfold openRun
  by_cases hdepth : limits.maxDepth < depth
  · rw [if_pos hdepth]
    exact ⟨_, rfl, .tooDeep _ _⟩
  · have hnodes : limits.maxNodes < progress.arena.count + count := by omega
    have hsome : count ≠ 0 := by omega
    simp only [hdepth, hsome, henough, hnodes, if_false, if_true, Bool.not_true,
      Bool.false_eq_true]
    exact ⟨_, rfl, .tooBig _ _⟩

/-- An element that is there is refused for a limit only. -/
theorem readElement_error {header payload rest : Bytes}
    (hrest : progress.rest = header ++ (payload ++ rest))
    (hheader : Header.decode options header = .ok (tag, header.length))
    (hpayload : payload.length = tag.payloadLength?.getD 0)
    (hchildren : tag.childCount?.getD 0 ≤ rest.length)
    (hcount : progress.arena.count ≤ limits.maxNodes)
    (hnot : ¬Takes limits depth (header.length + payload.length) tag progress) :
    ∃ error, progress.readElement options limits id depth = .error error ∧ error.OfLimit := by
  have hdecode : Header.decode options progress.rest = .ok (tag, header.length) := by
    rw [hrest]
    exact Header.decode_append hheader _
  rw [readElement, hdecode]
  simp only [bind, Except.bind]
  by_cases hsize : progress.position + header.length ≤ limits.maxSize
  · obtain ⟨body, hadvance, hbody, hposition, harena⟩ : ∃ body,
        progress.advance limits header.length = .ok body ∧ body.rest = payload ++ rest ∧
          body.position = progress.position + header.length ∧
            body.arena.count = progress.arena.count := by
      refine ⟨_, advance_ok hsize, ?_, rfl, rfl⟩
      rw [hrest, List.drop_left]
    rw [hadvance]
    simp only
    split
    · next length hlength =>
        have hnone := Tag.childCount_of_payload hlength
        rw [hlength, Option.getD_some] at hpayload
        have hrequire : body.require length = .ok () := by
          rw [require, if_pos]
          rw [hasAtLeast_iff, hbody, List.length_append]
          omega
        have hbig : limits.maxSize < body.position + length := by
          refine Nat.lt_of_not_le fun hfits => hnot ⟨by omega, fun hsome => absurd hnone hsome, ?_⟩
          rw [hnone]
          exact hcount
        obtain ⟨error, hlast, herror⟩ := advance_error hbig
        rw [hrequire]
        simp only
        rw [hlast]
        exact ⟨error, rfl, herror⟩
    · next count hlength hsome =>
        rw [hlength, Option.getD_none] at hpayload
        rw [hsome, Option.getD_some] at hchildren
        have hroom : count ≤ body.rest.length := by
          rw [hbody, List.length_append]
          omega
        have hfull : ¬(depth ≤ limits.maxDepth ∧ body.arena.count + count ≤ limits.maxNodes) := by
          rintro ⟨hdepth, hnodes⟩
          refine hnot ⟨by omega, fun _ => hdepth, ?_⟩
          rw [hsome, Option.getD_some]
          omega
        obtain ⟨error, hopen, herror⟩ := openRun_error hroom (by omega) hfull
        rw [hopen]
        exact ⟨error, rfl, herror⟩
    · next hlength hnone =>
        rw [hlength, Option.getD_none] at hpayload
        refine absurd ⟨by omega, fun hsome => absurd hnone hsome, ?_⟩ hnot
        rw [hnone]
        exact hcount
  · obtain ⟨error, hadvance, herror⟩ := advance_error (Nat.lt_of_not_le hsize)
    rw [hadvance]
    exact ⟨error, rfl, herror⟩

section Facing

variable {messages children : List Message} {rest header payload : Bytes} {levels : List Level}

theorem Facing.children_le
    (hfacing : Facing options progress (.node header tag payload children :: messages) rest) :
    progress.rest = header ++ (payload ++ (Message.text (children ++ messages) ++ rest)) ∧
      tag.childCount?.getD 0 ≤ (Message.text (children ++ messages) ++ rest).length := by
  have hcomplete := hfacing.complete _ (.head _)
  cases hcomplete with
  | node hheader hpayload hcount hchildren =>
      have hrest := hfacing.rest
      have hlength := Message.length_le_text hchildren
      simp only [Message.text, Message.bytes, Message.text_append, List.append_assoc,
        List.length_append] at hrest ⊢
      exact ⟨hrest, by omega⟩

/-- The next element keeps within the limits and is read, or is refused for a limit. -/
theorem Facing.reads_or_refused
    (hfacing : Facing options progress (.node header tag payload children :: messages) rest)
    (hbounded : Bounded limits progress) :
    (Takes limits depth (header.length + payload.length) tag progress ∧
        ∃ after, readElement options limits id depth { progress with levels } = .ok after) ∨
      ∃ error, readElement options limits id depth { progress with levels } = .error error ∧
        error.OfLimit := by
  obtain ⟨hrest, hchildren⟩ := hfacing.children_le
  have hcomplete := hfacing.complete _ (.head _)
  cases hcomplete with
  | node hheader hpayload hcount hinside =>
      by_cases htakes : Takes limits depth (header.length + payload.length) tag progress
      · have hsize := htakes.size
        exact .inl ⟨htakes, readElement_ok hrest hheader hpayload (by simp only; omega)
          htakes.depth hchildren htakes.nodes hbounded.granted⟩
      · exact .inr (readElement_error hrest hheader hpayload hchildren hbounded.nodes
          fun hsame => htakes ⟨hsame.size, hsame.depth, hsame.nodes⟩)

theorem Bounded.fill {node : NodeData}
    (hbounded : Bounded limits progress)
    (hslots : progress.slots = (id, depth) :: slots { progress with levels })
    (hfills : Fills options id depth header payload node { progress with levels } after)
    (htakes : Takes limits depth (header.length + payload.length) node.tag progress) :
    Bounded limits after := by
  obtain ⟨arena, hextends, harena⟩ := hfills.arena
  have hgranted : after.arena.Granted := by
    rw [harena]
    exact hextends.granted hbounded.granted
  refine ⟨?_, ?_, ?_, hgranted⟩
  · rw [hfills.position]
    have := htakes.size
    simp only
    omega
  · intro slot hslot
    rw [hfills.slots, List.mem_append] at hslot
    rcases hslot with hchild | houter
    · obtain ⟨k, hk, rfl⟩ := List.mem_map.mp hchild
      rw [List.mem_range] at hk
      have hopens : node.tag.childCount? ≠ none := by
        intro hnone
        rw [hnone] at hk
        exact absurd hk (Nat.not_lt_zero k)
      exact Nat.succ_le_succ (htakes.depth hopens)
    · refine hbounded.depth slot ?_
      rw [hslots]
      exact .tail _ houter
  · have hcount : after.arena.count = progress.arena.count + node.tag.childCount?.getD 0 := by
      rw [harena]
      exact hextends.count
    rw [hcount]
    exact htakes.nodes

/-- If what comes after a message keeps within the limits, so does the message. -/
theorem Ready.of_fill {node : NodeData}
    (hfacing : Facing options progress (.node header node.tag payload children :: messages) rest)
    (hbounded : Bounded limits progress)
    (hslots : progress.slots = (id, depth) :: slots { progress with levels })
    (hfills : Fills options id depth header payload node { progress with levels } after)
    (htakes : Takes limits depth (header.length + payload.length) node.tag progress)
    (hready : Ready options limits after (children ++ messages) rest) :
    Ready options limits progress (.node header node.tag payload children :: messages) rest := by
  have hcomplete := hfacing.complete _ (.head _)
  cases hcomplete with
  | node hheader hpayload hcount hinside =>
      obtain ⟨arena, hextends, harena⟩ := hfills.arena
      have hopened : after.arena.count = progress.arena.count + children.length := by
        rw [harena, hcount]
        exact hextends.count
      have hsize := hready.size
      have hnodes := hready.nodes
      rw [hfills.position, Message.text_append, List.length_append] at hsize
      rw [hopened, Message.nodesOf_append, List.length_append] at hnodes
      have hsame : (slotsFrom (node.children?.getD id) (depth + 1)
          (node.tag.childCount?.getD 0)).length = children.length := by
        rw [length_slotsFrom, hcount]
      refine ⟨hfacing.length, hfacing.complete, hfacing.rest, ?_, ?_, ?_, hbounded.granted⟩
      · simp only [Message.text, Message.bytes, List.length_append] at hsize ⊢
        omega
      · intro slot nesting message hmember
        rw [hslots, List.zip_cons_cons, List.mem_cons] at hmember
        rcases hmember with hfirst | houter
        · cases hfirst
          have hreached : depth ≤ limits.maxDepth + 1 :=
            hbounded.depth (id, depth) (by rw [hslots]; exact .head _)
          rw [Message.depth]
          cases hopens : node.tag.childCount? with
          | none => exact hreached
          | some owed =>
              have hdepth := htakes.depth (by rw [hopens]; exact Option.some_ne_none _)
              have hdepths : Message.depths children ≤ limits.maxDepth - depth := by
                refine Message.depths_le fun child hchild => ?_
                obtain ⟨k, hk, rfl⟩ := List.mem_iff_getElem.mp hchild
                have hzip : (((node.children?.getD id).offset k, depth + 1), children[k]) ∈
                    after.slots.zip (children ++ messages) := by
                  rw [hfills.slots, ← List.getElem_append_left hk]
                  exact mem_zip_slotsFrom (by rw [← hcount]; exact hk)
                    (by rw [List.length_append]; omega)
                have hbelow := hready.depth hzip
                omega
              simp only
              omega
        · refine hready.depth (?_ : ((slot, nesting), message) ∈ _)
          rw [hfills.slots, List.zip_append hsame, List.mem_append]
          exact .inr houter
      · simp only [Message.nodesOf, Message.nodes, List.length_cons]
        omega

/-- A step at a message that does not keep within the limits fails, or leaves what does not. -/
theorem Facing.step (hfacing : Facing options progress messages rest)
    (hbounded : Bounded limits progress) (hnot : ¬Ready options limits progress messages rest)
    (hlevels : progress.levels ≠ []) :
    (∃ error, progress.step options limits = .error error ∧ error.OfLimit) ∨
      ∃ after others, progress.step options limits = .ok after ∧
        Facing options after others rest ∧ Bounded limits after ∧
          ¬Ready options limits after others rest := by
  unfold Progress.step
  split
  · next hnil => exact absurd hnil hlevels
  · next level outer hcons =>
      split
      · next hleft =>
          have hslots := slots_full hcons hleft
          refine .inr ⟨_, messages, rfl, ⟨?_, hfacing.complete, hfacing.rest⟩,
            ⟨hbounded.size, ?_, hbounded.nodes, hbounded.granted⟩, fun hready => hnot ?_⟩
          · rw [hslots]
            exact hfacing.length
          · rw [hslots]
            exact hbounded.depth
          · refine ⟨hfacing.length, hfacing.complete, hfacing.rest, hready.size, ?_, hready.nodes,
              hbounded.granted⟩
            rw [← hslots]
            exact hready.depth
      · next hleft =>
          have hslots := slots_next hcons hleft
          cases messages with
          | nil =>
              have hlength := hfacing.length
              rw [hslots] at hlength
              cases hlength
          | cons message messages =>
              obtain ⟨header, tag, payload, children⟩ := message
              rcases hfacing.reads_or_refused hbounded with
                ⟨htakes, after, hread⟩ | ⟨error, herror, hlimit⟩
              · obtain ⟨node, hfills, rfl, hafter⟩ := hfacing.fill hslots hread
                exact .inr ⟨after, _, hread, hafter, hbounded.fill hslots hfills htakes,
                  fun hready => hnot (hready.of_fill hfacing hbounded hslots hfills htakes)⟩
              · exact .inl ⟨error, herror, hlimit⟩

theorem run_error (hfacing : Facing options progress messages rest)
    (hbounded : Bounded limits progress) (hnot : ¬Ready options limits progress messages rest) :
    ∃ error, progress.run options limits = .error error ∧ error.OfLimit := by
  fun_induction run options limits progress generalizing messages with
  | case1 progress hlevels =>
      have hlength := hfacing.length
      rw [slots_none hlevels] at hlength
      rw [List.eq_nil_of_length_eq_zero hlength] at hfacing hnot
      refine absurd ⟨hfacing.length, hfacing.complete, hfacing.rest, hbounded.size, ?_,
        hbounded.nodes, hbounded.granted⟩ hnot
      intro id depth message hmember
      rw [List.zip_nil_right] at hmember
      exact absurd hmember List.not_mem_nil
  | case2 progress hlevels after hstep ih =>
      rcases hfacing.step hbounded hnot hlevels with
        ⟨error, herror, -⟩ | ⟨next, others, hnext, hothers, hwithin, hfails⟩
      · rw [hstep] at herror
        cases herror
      · rw [hstep] at hnext
        cases hnext
        exact ih hothers hwithin hfails
  | case3 progress hlevels error hstep =>
      rcases hfacing.step hbounded hnot hlevels with
        ⟨other, hother, hlimit⟩ | ⟨next, others, hnext, -⟩
      · rw [hstep] at hother
        cases hother
        exact ⟨error, rfl, hlimit⟩
      · rw [hstep] at hnext
        cases hnext

end Facing

/-! No parse goes beyond the size. -/

theorem position_readElement (hread : progress.readElement options limits id depth = .ok after) :
    after.position ≤ limits.maxSize := by
  obtain ⟨⟨tag, size⟩, -, hread⟩ := bind_eq_ok hread
  obtain ⟨body, hbody, hread⟩ := bind_eq_ok hread
  obtain ⟨hsize, rfl⟩ := advance_eq_ok hbody
  split at hread
  · obtain ⟨_, -, hread⟩ := bind_eq_ok hread
    obtain ⟨payload, hpayload, hread⟩ := bind_eq_ok hread
    obtain ⟨hlength, rfl⟩ := advance_eq_ok hpayload
    cases hread
    exact hlength
  · obtain ⟨⟨children?, opened⟩, hopen, hread⟩ := bind_eq_ok hread
    cases hread
    simp only [place, (openRun_eq_ok hopen).position]
    exact hsize
  · cases hread
    exact hsize

theorem position_run (hposition : progress.position ≤ limits.maxSize)
    (hrun : progress.run options limits = .ok done) : done.position ≤ limits.maxSize := by
  fun_induction run options limits progress with
  | case1 progress hlevels =>
      cases hrun
      exact hposition
  | case2 progress hlevels after hstep ih =>
      refine ih ?_ hrun
      unfold Progress.step at hstep
      split at hstep
      · next hnil => exact absurd hnil hlevels
      · split at hstep
        · cases hstep
          exact hposition
        · exact position_readElement hstep
  | case3 progress hlevels error hstep => cases hrun

end Progress

/-! Parsing from the start. -/

variable {config : Config} {maxDepth : Nat} {options : TagOptions} {limits : Limits}
  {root : NodeId} {arena : Arena} {message : Message} {bytes : Bytes}

theorem run_start_error (hcomplete : message.Complete options) (harena : arena.count = 1)
    (hgranted : arena.Granted) (hroom : 1 ≤ limits.maxNodes) (hnot : ¬limits.Admits message)
    (rest : Bytes) :
    ∃ error, (Progress.start root arena (message.bytes ++ rest)).run options limits =
      .error error ∧ error.OfLimit := by
  have htext : Message.text [message] = message.bytes := List.append_nil _
  have hfacing : Progress.Facing options (Progress.start root arena (message.bytes ++ rest))
      [message] rest := by
    refine ⟨rfl, ?_, ?_⟩
    · intro other hother
      rw [List.mem_singleton.mp hother]
      exact hcomplete
    · rw [htext]
      rfl
  refine Progress.run_error hfacing ⟨Nat.zero_le _, ?_, ?_, hgranted⟩ fun hready => hnot ?_
  · intro slot hslot
    cases List.mem_singleton.mp hslot
    exact Nat.le_add_left 1 _
  · exact Nat.le_trans (Nat.le_of_eq harena) hroom
  · have hdepth : 1 + message.depth ≤ limits.maxDepth + 1 :=
      hready.depth (show ((root, 1), message) ∈ [((root, 1), message)] from .head _)
    have hsize := hready.size
    have hnodes := hready.nodes
    rw [htext] at hsize
    simp only [Progress.start, harena, Message.nodesOf, List.length_singleton] at hsize hnodes
    exact ⟨by omega, by omega, by omega⟩

/-- A message that is not within the limits is refused for them. -/
theorem parseFront_error (hvalid : config.Valid) (hnode : config.node = true)
    (hreserves : config.Reserves) (hroom : 1 ≤ config.maxNodes)
    (hcomplete : message.Complete config.tagOptions)
    (hnot : ¬(Limits.of config maxDepth).Admits message) (rest : Bytes) :
    ∃ error, parseFront config maxDepth (message.bytes ++ rest) = .error error ∧
      error.OfLimit := by
  have hsome : message.bytes ++ rest ≠ [] :=
    List.append_ne_nil_of_left_ne_nil (List.ne_nil_of_length_pos hcomplete.length_pos) rest
  obtain ⟨root, start, hinitial⟩ := Progress.initial_ok hreserves hsome
  obtain ⟨arena, rfl, hcount, hgranted, -⟩ := Progress.start_of_initial hinitial
  obtain ⟨error, hrun, hlimit⟩ := run_start_error hcomplete hcount hgranted hroom hnot rest
  rw [parseFront_of_initial hvalid hnode hinitial, hrun]
  exact ⟨error, rfl, hlimit⟩

theorem length_le_of_parseWithin {tree : Tree}
    (hparse : parseWithin config maxDepth bytes = .ok tree) : bytes.length ≤ config.maxSize := by
  obtain ⟨-, -, -, hinput, -⟩ := parseWithin_eq_ok hparse
  obtain ⟨-, -, root, start, done, hinitial, hrun, -, rfl⟩ :=
    parseFront_eq_ok (parseFront_of_parseWithin hparse)
  obtain ⟨arena, rfl, -⟩ := Progress.start_of_initial hinitial
  have hdone : done.position ≤ config.maxSize := Progress.position_run (Nat.zero_le _) hrun
  have hsize : (bytes.take done.position).length = bytes.length := congrArg Array.size hinput
  rw [List.length_take] at hsize
  omega

theorem parseWithin_admitted (hvalid : config.Valid) (hnode : config.node = true)
    (hreserves : config.Reserves) (hcomplete : message.Complete config.tagOptions)
    (hadmits : (Limits.of config maxDepth).Admits message) :
    ∃ tree, parseWithin config maxDepth message.bytes = .ok tree := by
  obtain ⟨tree, hfront⟩ := parseFront_ok hvalid hnode hreserves hcomplete hadmits.depth
    hadmits.size hadmits.nodes []
  rw [List.append_nil] at hfront
  rw [parseWithin, hfront]
  exact ⟨tree, rfl⟩

theorem parseWithin_refused (hvalid : config.Valid) (hnode : config.node = true)
    (hreserves : config.Reserves) (hroom : 1 ≤ config.maxNodes)
    (hcomplete : message.Complete config.tagOptions)
    (hnot : ¬(Limits.of config maxDepth).Admits message) (rest : Bytes) :
    ∃ error, parseWithin config maxDepth (message.bytes ++ rest) = .error error ∧
      error.OfLimit := by
  obtain ⟨error, hfront, hlimit⟩ :=
    parseFront_error hvalid hnode hreserves hroom hcomplete hnot rest
  rw [parseWithin, hfront]
  exact ⟨error, rfl, hlimit⟩

theorem parseWithin_trailing (hvalid : config.Valid) (hnode : config.node = true)
    (hreserves : config.Reserves) (hcomplete : message.Complete config.tagOptions)
    (hadmits : (Limits.of config maxDepth).Admits message) {rest : Bytes} (hrest : rest ≠ []) :
    parseWithin config maxDepth (message.bytes ++ rest) =
      .error (.invalid (.trailingData rest.length)) := by
  obtain ⟨tree, hfront⟩ := parseFront_ok hvalid hnode hreserves hcomplete hadmits.depth
    hadmits.size hadmits.nodes rest
  rw [parseWithin, hfront]
  cases rest with
  | nil => exact absurd rfl hrest
  | cons byte rest => rfl

/-- What is parsed is a complete message within the limits. -/
theorem admitted_of_parseWithin {tree : Tree} (hvalid : config.Valid)
    (hnode : config.node = true) (hroom : 1 ≤ config.maxNodes)
    (hparse : parseWithin config maxDepth bytes = .ok tree) :
    ∃ message : Message, message.Complete config.tagOptions ∧ message.bytes = bytes ∧
      (Limits.of config maxDepth).Admits message := by
  obtain ⟨message, hcomplete, rfl, -⟩ := parseWithin_eq_ok hparse
  refine ⟨message, hcomplete, rfl, Classical.byContradiction fun hnot => ?_⟩
  obtain ⟨error, herror, -⟩ := parseWithin_refused hvalid hnode
    (reserves_of_parseWithin hparse) hroom hcomplete hnot []
  rw [List.append_nil, hparse] at herror
  cases herror

end Tree

/-- What is found to be a message is one by the grammar. Where a first page and levels are granted,
a tree is made of it exactly if the limits admit it; the error is about a limit otherwise, or
about the bytes behind the message. -/
theorem messageLength_and_parseWithin {buffer : Bytes} (hlength : buffer.length < UInt32.size) :
    (∀ options : TagOptions,
      (∀ n, messageLength options buffer = .ok (some n) ↔
        n ≤ buffer.length ∧ Messages options 1 (buffer.take n)) ∧
      ∀ cut, (Scan.resume options (buffer.take cut) {}).2.owed < UInt64.size) ∧
    ∀ (config : Config) (maxDepth : Nat), config.Valid → config.node = true →
      config.Reserves → 1 ≤ config.maxNodes →
      ((∃ tree, Tree.parseWithin config maxDepth buffer = .ok tree) ↔
        messageLength config.tagOptions buffer = .ok (some buffer.length) ∧
          ∃ message : Message, message.Complete config.tagOptions ∧ message.bytes = buffer ∧
            (Tree.Limits.of config maxDepth).Admits message) ∧
      ∀ n, messageLength config.tagOptions buffer = .ok (some n) →
        ∃ message : Message, message.Complete config.tagOptions ∧
          message.bytes = buffer.take n ∧
          (¬(Tree.Limits.of config maxDepth).Admits message →
            ∃ error, Tree.parseWithin config maxDepth buffer = .error error ∧ error.OfLimit) ∧
          ((Tree.Limits.of config maxDepth).Admits message → n < buffer.length →
            Tree.parseWithin config maxDepth buffer =
              .error (.invalid (.trailingData (buffer.length - n)))) := by
  refine ⟨fun options => ⟨fun n => messageLength_eq_some_iff, fun cut => ?_⟩,
    fun config maxDepth hvalid hnode hreserves hroom => ⟨⟨?_, ?_⟩, fun n hfound => ?_⟩⟩
  · refine Scan.owed_resume_lt (Nat.lt_of_le_of_lt ?_ hlength)
    rw [List.length_take]
    exact Nat.min_le_right _ _
  · rintro ⟨tree, hparse⟩
    obtain ⟨message, hcomplete, rfl, hadmits⟩ :=
      Tree.admitted_of_parseWithin hvalid hnode hroom hparse
    refine ⟨messageLength_eq_some_iff.mpr ⟨Nat.le_refl _, ?_⟩, message, hcomplete, rfl, hadmits⟩
    rw [List.take_length]
    exact Messages.one_iff.mpr ⟨message, hcomplete, rfl⟩
  · rintro ⟨-, message, hcomplete, rfl, hadmits⟩
    exact Tree.parseWithin_admitted hvalid hnode hreserves hcomplete hadmits
  · obtain ⟨hwithin, hmessages⟩ := messageLength_eq_some_iff.mp hfound
    obtain ⟨message, hcomplete, hbytes⟩ := Messages.one_iff.mp hmessages
    have hbuffer : message.bytes ++ buffer.drop n = buffer := by
      rw [hbytes, List.take_append_drop]
    refine ⟨message, hcomplete, hbytes, fun hnot => ?_, fun hadmits hless => ?_⟩
    · obtain ⟨error, hparse, hlimit⟩ :=
        Tree.parseWithin_refused hvalid hnode hreserves hroom hcomplete hnot (buffer.drop n)
      rw [hbuffer] at hparse
      exact ⟨error, hparse, hlimit⟩
    · have hsome : buffer.drop n ≠ [] := fun hnone =>
        absurd hless (Nat.not_lt.mpr (List.drop_eq_nil_iff.mp hnone))
      have hparse := Tree.parseWithin_trailing hvalid hnode hreserves hcomplete hadmits hsome
      rwa [hbuffer, List.length_drop] at hparse

/-- An array of two that is parsed within limits it just meets, and is not with one node less. -/
theorem messageLength_and_parseWithin_pair :
    messageLength {} [0x92, 0x01, 0xc0] = .ok (some 3) ∧
      (∃ tree, Tree.parseWithin { maxNodes := 3, maxSize := 3 } 1 [0x92, 0x01, 0xc0] = .ok tree) ∧
      ∃ error, Tree.parseWithin { maxNodes := 2, maxSize := 3 } 1 [0x92, 0x01, 0xc0] =
        .error error ∧ error.OfLimit := by
  have hfound : messageLength {} [0x92, 0x01, 0xc0] = .ok (some 3) := by cbv
  obtain ⟨-, hparse⟩ := messageLength_and_parseWithin
    (show [0x92, 0x01, 0xc0].length < UInt32.size by decide)
  have hitems : ∀ child ∈ [Message.node [0x01] (.uint 1) [] [], .node [0xc0] .nil [] []],
      child.Complete {} := by
    intro child hchild
    simp only [List.mem_cons, List.not_mem_nil, or_false] at hchild
    rcases hchild with rfl | rfl <;> exact .node rfl rfl rfl fun _ hnone => by cases hnone
  have hcomplete : (Message.node [0x92] (.array 2) [] _).Complete {} :=
    .node rfl rfl rfl hitems
  refine ⟨hfound, ?_, ?_⟩
  · refine (hparse { maxNodes := 3, maxSize := 3 } 1 (by decide) rfl (by decide) (by decide)).1.mpr
      ⟨hfound, _, hcomplete, rfl, ⟨by decide, by decide, by decide⟩⟩
  · obtain ⟨message, hother, hbytes, hrefused, -⟩ :=
      (hparse { maxNodes := 2, maxSize := 3 } 1 (by decide) rfl (by decide) (by decide)).2 3 hfound
    obtain ⟨rfl, -⟩ := hother.unique hcomplete (congrArg (· ++ []) hbytes)
    exact hrefused fun hadmits => absurd hadmits.nodes (by decide)

end MessagePack
