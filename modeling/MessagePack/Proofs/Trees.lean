import MessagePack.Proofs.Config
import MessagePack.Proofs.Parsing

/-!
Trees as documents. A tree is parsed from exactly the bytes of a complete message, and the
value it holds is the value of that message.
-/

namespace MessagePack

variable {α β : Type}

theorem paired_map (f : Nat → α) (n : Nat) :
    paired ((List.range (2 * n)).map f) =
      (List.range n).map fun k => (f (2 * k), f (2 * k + 1)) := by
  induction n generalizing f with
  | zero => rfl
  | succ n ih =>
      have hfirst := ih fun k => f (k + 2)
      rw [Nat.mul_succ, List.range_succ_eq_map, List.range_succ_eq_map, List.range_succ_eq_map]
      simp only [List.map_cons, List.map_map, paired]
      exact congrArg _ hfirst

theorem mapM_paired (f : α → Except Error β) {list : List α} {n : Nat}
    (hlength : list.length = 2 * n) :
    (paired list).mapM (fun (key, value) => return (← f key, ← f value)) =
      (list.mapM f).map paired := by
  induction n generalizing list with
  | zero =>
      rw [List.eq_nil_of_length_eq_zero hlength]
      rfl
  | succ n ih =>
      match list, hlength with
      | [_], hlength =>
          simp only [List.length_cons, List.length_nil] at hlength
          omega
      | key :: value :: list, hlength =>
          simp only [List.length_cons] at hlength
          rw [paired, List.mapM_cons, List.mapM_cons, List.mapM_cons,
            ih (show list.length = 2 * n by omega)]
          dsimp only
          cases f key with
          | error error => rfl
          | ok key =>
              cases f value with
              | error error => rfl
              | ok value => cases list.mapM f <;> rfl

theorem mapM_values {f : α → Except Error Value} {list : List α} {messages : List Message}
    (hlength : list.length = messages.length)
    (hvalue : ∀ (k : Nat) (hk : k < list.length) (hmessage : k < messages.length),
      f list[k] = messages[k].value) :
    list.mapM f = Message.values messages := by
  induction messages generalizing list with
  | nil =>
      rw [List.eq_nil_of_length_eq_zero hlength]
      rfl
  | cons message messages ih =>
      cases list with
      | nil => cases hlength
      | cons first list =>
          have hfirst : f first = message.value :=
            hvalue 0 (Nat.succ_pos _) (Nat.succ_pos _)
          have hrest : list.mapM f = Message.values messages := by
            refine ih (Nat.succ.inj hlength) fun k hk hmessage => ?_
            exact hvalue (k + 1) (Nat.succ_lt_succ hk) (Nat.succ_lt_succ hmessage)
          rw [List.mapM_cons, hfirst, hrest, Message.values]

namespace Tree

variable {tree : Tree} {options : TagOptions} {bytes : Bytes} {message : Message} {id : NodeId}
  {fuel : Nat}

theorem payload_eq {payload : Bytes} {length : Nat} (hinput : tree.input = bytes.toArray)
    (htag : (tree.tagAt id).payloadLength? = some length)
    (hpayload : (bytes.drop (tree.arena.get id).start).take length = payload) :
    tree.payload? id = some payload := by
  rw [tagAt] at htag
  rw [payload?, htag, hinput, Option.map_some]
  simp [← hpayload]

theorem ofNodeWithin_shown (hinput : tree.input = bytes.toArray)
    (hcomplete : message.Complete options) (hshown : Shown bytes tree.arena message id)
    (hdepth : message.depth < fuel) : Value.ofNodeWithin tree fuel id = message.value := by
  induction hshown generalizing fuel with
  | @node header payload children id data hdata hpayload hchildren ih =>
      cases fuel with
      | zero => exact absurd hdepth (Nat.not_lt_zero _)
      | succ fuel =>
          cases hcomplete with
          | node _ hlength hcount hinside =>
              obtain ⟨tag, start, children?⟩ := data
              have htag : tree.tagAt id = tag := by rw [tagAt, hdata]
              have hchild : ∀ k, tree.child id k = (children?.getD id).offset k := fun k => by
                rw [child, hdata]
              have hslots : ∀ n, children.length = n → Message.depths children < fuel →
                  ((List.range n).map (tree.child id)).mapM (Value.ofNodeWithin tree fuel) =
                    Message.values children := by
                intro n hn hbelow
                refine mapM_values ?_ fun k hk hmessage => ?_
                · rw [List.length_map, List.length_range, hn]
                · rw [List.getElem_map, List.getElem_range, hchild]
                  exact ih k hmessage (hinside _ (List.getElem_mem hmessage))
                    (Nat.lt_of_le_of_lt (Message.le_depths (List.getElem_mem hmessage)) hbelow)
              cases tag with
              | str length =>
                  have hbytes : tree.payload? id = some payload :=
                    payload_eq hinput (by rw [htag]; rfl) (by rw [hdata, ← hpayload, hlength]; rfl)
                  simp only [Value.ofNodeWithin, asText, htag, hbytes, Option.getD_some,
                    Message.value, Value.ofText]
                  cases ofUtf8? payload <;> rfl
              | bin length | ext type length =>
                  have hbytes : tree.payload? id = some payload :=
                    payload_eq hinput (by rw [htag]; rfl) (by rw [hdata, ← hpayload, hlength]; rfl)
                  simp only [Value.ofNodeWithin, asBytes, htag, hbytes, Message.value]
                  rfl
              | array count =>
                  rw [Message.depth_node (by simp [Tag.childCount?])] at hdepth
                  have hitems : (tree.childrenOf id).mapM (Value.ofNodeWithin tree fuel) =
                      Message.values children := by
                    rw [childrenOf, htag]
                    exact hslots _ hcount (Nat.lt_of_succ_lt_succ hdepth)
                  simp only [Value.ofNodeWithin, htag, hitems, Message.value]
                  cases Message.values children <;> rfl
              | map pairs =>
                  rw [Message.depth_node (by simp [Tag.childCount?])] at hdepth
                  have hpairs : children.length = 2 * pairs.toNat := hcount
                  have hentries := mapM_paired (Value.ofNodeWithin tree fuel)
                    (show ((List.range (2 * pairs.toNat)).map (tree.child id)).length =
                      2 * pairs.toNat by rw [List.length_map, List.length_range])
                  rw [paired_map, hslots _ hpairs (Nat.lt_of_succ_lt_succ hdepth)] at hentries
                  simp only [Value.ofNodeWithin, htag, pairsOf, Message.value]
                  rw [hentries]
                  cases Message.values children <;> rfl
              | _ => simp only [Value.ofNodeWithin, htag, Message.value]

end Tree

/-! Parsing from the start, where the root is the only slot. -/

/-- The page and the levels that a parse starts with are not refused. -/
def Config.Reserves (config : Config) : Prop :=
  (Arena.ofPageBytes config.nodePageSize).Granted ∧
    config.nodeInitialDepth * Tree.Level.size ≤ maxReserve

instance (config : Config) : Decidable config.Reserves :=
  inferInstanceAs (Decidable (_ ∧ _))

namespace Tree

/-- The limits of a parse that was asked to nest no deeper than that. -/
def Limits.of (config : Config) (maxDepth : Nat) : Limits where
  maxDepth := config.nodeDepthLimit maxDepth
  maxSize := config.maxSize
  maxNodes := config.maxNodes

variable {tree : Tree} {options : TagOptions} {bytes rest : Bytes} {message : Message}
  {config : Config} {maxDepth : Nat} {limits : Limits} {root : NodeId} {arena : Arena}

namespace Progress

variable {start : Progress}

theorem initial_ok (hreserves : config.Reserves) (hsome : bytes ≠ []) :
    ∃ root start, initial config bytes = .ok (root, start) := by
  obtain ⟨root, arena, hallocate⟩ := Arena.allocate_ofPageBytes_iff.mpr hreserves.1
  refine ⟨root, .start root arena bytes, ?_⟩
  rw [initial, if_neg hsome, hallocate, reserve_ok hreserves.2]
  rfl

theorem reserves_of_initial (hinitial : initial config bytes = .ok (root, start)) :
    config.Reserves := by
  obtain ⟨-, arena, hallocate, hreserve, -⟩ := initial_eq_ok hinitial
  exact ⟨Arena.allocate_ofPageBytes_iff.mp ⟨root, arena, hallocate⟩, reserve_eq_ok hreserve⟩

/-- There is one slot at the start, that of the root. -/
theorem start_of_initial (hinitial : initial config bytes = .ok (root, start)) :
    ∃ arena, start = .start root arena bytes ∧ arena.count = 1 ∧ arena.Granted ∧
      arena.slot? root = some .empty := by
  obtain ⟨-, arena, hallocate, -, rfl⟩ := initial_eq_ok hinitial
  have hextends := Arena.allocate_extends Nat.one_pos hallocate
  exact ⟨arena, rfl, hextends.count, hextends.granted (reserves_of_initial hinitial).1,
    hextends.filled Nat.one_pos⟩

/-- A parse that does not start lacks bytes or is refused what it takes before them. -/
theorem initial_error {error : Error} (hinitial : initial config bytes = .error error) :
    bytes = [] ∧ error = .truncated 1 0 ∨ ∃ requested, error = .resource requested := by
  unfold initial at hinitial
  split at hinitial
  · next hnone =>
      cases hinitial
      exact .inl ⟨hnone, rfl⟩
  · right
    cases hallocate : (Arena.ofPageBytes config.nodePageSize).allocate 1 with
    | error refused =>
        rw [hallocate] at hinitial
        cases hinitial
        exact Arena.allocate_refused hallocate
    | ok taken =>
        rw [hallocate] at hinitial
        cases hreserve : reserve config.nodeInitialDepth Level.size with
        | error refused =>
            rw [hreserve] at hinitial
            cases hinitial
            exact reserve_refused hreserve
        | ok done =>
            rw [hreserve] at hinitial
            cases hinitial

theorem initial_unreserved (hreserves : ¬config.Reserves) (hsome : bytes ≠ []) :
    ∃ requested, initial config bytes = .error (.resource requested) := by
  cases hinitial : initial config bytes with
  | ok started => exact absurd (reserves_of_initial hinitial) hreserves
  | error error =>
      obtain ⟨hnone, -⟩ | ⟨requested, rfl⟩ := initial_error hinitial
      · exact absurd hnone hsome
      · exact ⟨requested, rfl⟩

end Progress

theorem run_start_eq_ok {done : Progress} (hroot : ∃ node, arena.slot? root = some node)
    (hrun : (Progress.start root arena bytes).run options limits = .ok done) :
    ∃ message : Message, message.Complete options ∧ bytes = message.bytes ++ done.rest ∧
      done.position = message.bytes.length ∧ Shown bytes done.arena message root ∧
      message.depth ≤ done.deepest := by
  have htidy : Progress.Tidy (Progress.start root arena bytes).ids arena := by
    refine ⟨List.pairwise_singleton _ _, fun id hid => ?_⟩
    rw [List.mem_singleton.mp hid]
    exact hroot
  have hstart : bytes = bytes.drop 0 := rfl
  obtain ⟨messages, hparsed⟩ := Progress.run_eq_ok hrun hstart htidy
  obtain ⟨message, rfl⟩ := List.length_eq_one_iff.mp hparsed.length
  have htext : Message.text [message] = message.bytes := List.append_nil _
  obtain ⟨hshown, hdepth⟩ : Shown bytes done.arena message root ∧
      (0 < message.depth → 1 + message.depth ≤ done.deepest + 1) := hparsed.shown (.head _)
  refine ⟨message, hparsed.complete message (.head _), ?_, ?_, hshown, by omega⟩
  · rw [← htext]
    exact hparsed.rest
  · rw [← htext]
    exact hparsed.position.trans (Nat.zero_add _)

theorem run_start_ok (hcomplete : message.Complete options) (harena : arena.count = 1)
    (hgranted : arena.Granted) (hdepth : message.depth ≤ limits.maxDepth)
    (hsize : message.bytes.length ≤ limits.maxSize) (hnodes : message.nodes ≤ limits.maxNodes)
    (rest : Bytes) :
    ∃ done, (Progress.start root arena (message.bytes ++ rest)).run options limits = .ok done ∧
      done.rest = rest := by
  have htext : Message.text [message] = message.bytes := List.append_nil _
  have hready : Progress.Ready options limits (Progress.start root arena (message.bytes ++ rest))
      [message] rest := by
    refine ⟨rfl, ?_, ?_, ?_, ?_, ?_, hgranted⟩
    · intro other hother
      rw [List.mem_singleton.mp hother]
      exact hcomplete
    · rw [htext]
      rfl
    · rw [htext]
      simp only [Progress.start]
      omega
    · intro id depth other hother
      cases List.mem_singleton.mp hother
      simp only
      omega
    · simp only [Progress.start, harena, Message.nodesOf, List.length_singleton]
      omega
  exact Progress.run_ok hready

/-- A parse from its start to its end, under the limits of a valid configuration. -/
theorem parseFront_eq_ok (hparse : parseFront config maxDepth bytes = .ok (tree, rest)) :
    config.Valid ∧ config.node = true ∧ ∃ root start done,
      Progress.initial config bytes = .ok (root, start) ∧
        start.run config.tagOptions (.of config maxDepth) = .ok done ∧ rest = done.rest ∧
          tree = {
            input := (bytes.take done.position).toArray
            arena := done.arena
            root
            options := config.tagOptions
            depth := done.deepest } := by
  obtain ⟨_, hnode, hparse⟩ := bind_eq_ok hparse
  obtain ⟨_, hvalid, hparse⟩ := bind_eq_ok hparse
  obtain ⟨⟨root, start⟩, hinitial, hparse⟩ := bind_eq_ok hparse
  obtain ⟨done, hrun, hpure⟩ := bind_eq_ok hparse
  cases hpure
  exact ⟨Config.valid_of_validate hvalid, requireFeature_eq_ok hnode, root, start, done, hinitial,
    hrun, rfl, rfl⟩

/-- Where a parse starts, it comes to what its run comes to. -/
theorem parseFront_of_initial {start : Progress} (hvalid : config.Valid)
    (hnode : config.node = true) (hinitial : Progress.initial config bytes = .ok (root, start))
    (maxDepth : Nat) :
    parseFront config maxDepth bytes =
      (start.run config.tagOptions (.of config maxDepth)).map fun done => ({
        input := (bytes.take done.position).toArray
        arena := done.arena
        root
        options := config.tagOptions
        depth := done.deepest }, done.rest) := by
  rw [parseFront, requireFeature_on hnode, hvalid.validate, hinitial]
  rfl

theorem parseFront_of_parseWithin (hparse : parseWithin config maxDepth bytes = .ok tree) :
    parseFront config maxDepth bytes = .ok (tree, []) := by
  obtain ⟨⟨found, rest⟩, hfront, hwhole⟩ := bind_eq_ok hparse
  cases rest with
  | nil =>
      cases hwhole
      exact hfront
  | cons byte rest => cases hwhole

theorem reserves_of_parseWithin (hparse : parseWithin config maxDepth bytes = .ok tree) :
    config.Reserves := by
  obtain ⟨-, -, root, start, done, hinitial, -⟩ :=
    parseFront_eq_ok (parseFront_of_parseWithin hparse)
  exact Progress.reserves_of_initial hinitial

theorem parseWithin_eq_ok (hparse : parseWithin config maxDepth bytes = .ok tree) :
    ∃ message : Message, message.Complete config.tagOptions ∧ message.bytes = bytes ∧
      tree.input = bytes.toArray ∧ Value.ofTree tree = message.value := by
  obtain ⟨-, -, root, start, done, hinitial, hrun, hrest, rfl⟩ :=
    parseFront_eq_ok (parseFront_of_parseWithin hparse)
  obtain ⟨arena, rfl, -, -, hroot⟩ := Progress.start_of_initial hinitial
  obtain ⟨message, hcomplete, hbytes, hposition, hshown, hdepth⟩ := run_start_eq_ok ⟨_, hroot⟩ hrun
  rw [← hrest, List.append_nil] at hbytes
  subst hbytes
  have hinput : (message.bytes.take done.position).toArray = message.bytes.toArray := by
    rw [hposition, List.take_length]
  exact ⟨message, hcomplete, rfl, hinput,
    ofNodeWithin_shown hinput hcomplete hshown (Nat.lt_succ_of_le hdepth)⟩

/-- The tree of a complete message holds the value of it. -/
theorem ofTree_of_parseWithin (hcomplete : message.Complete config.tagOptions)
    (hparse : parseWithin config maxDepth message.bytes = .ok tree) :
    Value.ofTree tree = message.value := by
  obtain ⟨other, hother, hbytes, -, hvalue⟩ := parseWithin_eq_ok hparse
  obtain ⟨rfl, -⟩ := hcomplete.unique hother (congrArg (· ++ []) hbytes.symm)
  exact hvalue

/-- A message within the limits is parsed, whatever comes behind it. -/
theorem parseFront_ok (hvalid : config.Valid) (hnode : config.node = true)
    (hreserves : config.Reserves) (hcomplete : message.Complete config.tagOptions)
    (hdepth : message.depth ≤ config.nodeDepthLimit maxDepth)
    (hsize : message.bytes.length ≤ config.maxSize) (hnodes : message.nodes ≤ config.maxNodes)
    (rest : Bytes) :
    ∃ tree, parseFront config maxDepth (message.bytes ++ rest) = .ok (tree, rest) := by
  have hsome : message.bytes ++ rest ≠ [] :=
    List.append_ne_nil_of_left_ne_nil (List.ne_nil_of_length_pos hcomplete.length_pos) rest
  obtain ⟨root, start, hinitial⟩ := Progress.initial_ok hreserves hsome
  obtain ⟨arena, rfl, hcount, hgranted, -⟩ := Progress.start_of_initial hinitial
  obtain ⟨done, hrun, hrest⟩ : ∃ done, (Progress.start root arena (message.bytes ++ rest)).run
      config.tagOptions (.of config maxDepth) = .ok done ∧ done.rest = rest :=
    run_start_ok hcomplete hcount hgranted hdepth hsize hnodes rest
  rw [parseFront_of_initial hvalid hnode hinitial, hrun, ← hrest]
  exact ⟨_, rfl⟩

theorem parseWithin_ok (hvalid : config.Valid) (hnode : config.node = true)
    (hreserves : config.Reserves) (hcomplete : message.Complete config.tagOptions)
    (hdepth : message.depth ≤ config.nodeDepthLimit maxDepth)
    (hsize : message.bytes.length ≤ config.maxSize) (hnodes : message.nodes ≤ config.maxNodes) :
    ∃ tree, parseWithin config maxDepth message.bytes = .ok tree ∧
      Value.ofTree tree = message.value := by
  obtain ⟨tree, hfront⟩ := parseFront_ok hvalid hnode hreserves hcomplete hdepth hsize hnodes []
  rw [List.append_nil] at hfront
  have hparse : parseWithin config maxDepth message.bytes = .ok tree := by
    rw [parseWithin, hfront]
    rfl
  exact ⟨tree, hparse, ofTree_of_parseWithin hcomplete hparse⟩

/-- Nothing is parsed where a parse is refused what it takes before it reads a byte. -/
theorem parseWithin_of_refused {error : Error} (hvalid : config.Valid) (hnode : config.node = true)
    (hinitial : Progress.initial config bytes = .error error) (maxDepth : Nat) :
    parseWithin config maxDepth bytes = .error error := by
  rw [parseWithin, parseFront, requireFeature_on hnode, hvalid.validate, hinitial]
  rfl

theorem parseWithin_unreserved (hvalid : config.Valid) (hnode : config.node = true)
    (hreserves : ¬config.Reserves) (maxDepth : Nat) (hsome : bytes ≠ []) :
    ∃ requested, parseWithin config maxDepth bytes = .error (.resource requested) := by
  obtain ⟨requested, hinitial⟩ := Progress.initial_unreserved hreserves hsome
  exact ⟨requested, parseWithin_of_refused hvalid hnode hinitial maxDepth⟩

end Tree
end MessagePack
