import MessagePack.Proofs.Config
import MessagePack.Proofs.Input
import MessagePack.Proofs.Scanning
import MessagePack.Proofs.Trees
import MessagePack.Tree.Stream

/-!
Trees out of a steady source. However the bytes arrive, a source of complete messages gives one
tree for each of them, and then ends; where a parse has no room to start, the first of them ends
it with an error.
-/

namespace MessagePack

/-- The message is complete and keeps within the limits of the configuration. -/
structure Config.Admits (config : Config) (message : Message) : Prop where
  complete : message.Complete config.tagOptions
  depth : message.depth ≤ config.nodeDepthLimit config.maxDepth
  size : message.bytes.length ≤ config.maxSize
  nodes : message.nodes ≤ config.maxNodes

namespace Stream.State

variable {config : Config} {state after : State} {message : Message} {messages : List Message}

/-- The messages are still to come, some of their bytes in the buffer. -/
structure Awaits (config : Config) (messages : List Message) (state : State) : Prop where
  configured : state.config = config
  bounded : state.maxDepth = config.maxDepth
  live : state.live = false
  steady : state.source.Steady
  ended : state.ended = true → state.source.content = []
  admits : ∀ message ∈ messages, config.Admits message
  content : state.buffer ++ state.source.content = Message.text messages
  scanned : state.scan.position ≤ state.buffer.length
  scan : ∀ message ∈ messages.head?, state.scan.Owes config.tagOptions
    ((state.buffer ++ state.source.content).drop state.scan.position) message.bytes.length

theorem cut_empty (hbuffer : state.buffer = []) :
    state.cut = (.ok (if state.ended then .exhausted else .wanting), state) := by
  obtain ⟨source, config, maxDepth, live, buffer, ended, scan⟩ := state
  obtain rfl : buffer = [] := hbuffer
  cases ended <;> simp [cut]

theorem owes_start (hcomplete : message.Complete config.tagOptions) :
    Scan.Owes config.tagOptions (Message.text (message :: messages)) message.bytes.length {} := by
  have htext : Message.text [message] = message.bytes := List.append_nil _
  refine ⟨[message], Message.text messages, ?_, rfl, ?_, ?_⟩
  · rw [htext, Message.text]
  · intro other hother
    rw [List.mem_singleton.mp hother]
    exact hcomplete
  · rw [htext]
    exact Nat.zero_add _

theorem Awaits.not_ended (hawaits : state.Awaits config (message :: messages))
    (hbuffer : state.buffer.length < message.bytes.length) : state.ended = false := by
  cases hended : state.ended with
  | false => rfl
  | true =>
      have hcontent := hawaits.content
      rw [hawaits.ended hended, List.append_nil] at hcontent
      rw [hcontent, Message.text, List.length_append] at hbuffer
      omega

theorem Awaits.cut_cons (hawaits : state.Awaits config (message :: messages)) :
    (∃ after, state.cut = (.ok (.message message.bytes), after) ∧ after.Awaits config messages) ∨
      ∃ after, state.cut = (.ok .wanting, after) ∧ after.Awaits config (message :: messages) := by
  have hadmits := hawaits.admits message (.head _)
  by_cases hempty : state.buffer = []
  · have hended := hawaits.not_ended (by rw [hempty]; exact hadmits.complete.length_pos)
    refine .inr ⟨state, ?_, hawaits⟩
    rw [cut_empty hempty, hended]
    rfl
  · have howes := hawaits.scan message rfl
    rw [List.drop_append_of_le_length hawaits.scanned] at howes
    obtain ⟨found, scan, hadvance, hreaches⟩ := Scan.advance_owes howes
    have hlength := hawaits.scanned
    have hbehind : state.scan.position + (state.buffer.drop state.scan.position).length =
        state.buffer.length := by
      rw [List.length_drop]
      omega
    have hcontent : state.buffer ++ state.source.content =
        message.bytes ++ Message.text messages := hawaits.content
    have hresume : Scan.resume state.config.tagOptions state.buffer state.scan =
        (.ok found, scan) := by
      rw [hawaits.configured]
      exact hadvance
    cases hreaches with
    | found hend =>
        rw [hbehind] at hend
        obtain ⟨rest, hbuffer, hrest⟩ := append_split hcontent hend
        have hcut : state.cut = (.ok (.message message.bytes),
            { state with buffer := rest, scan := {} }) := by
          simp only [cut, hempty, if_false, hresume]
          rw [hbuffer, List.take_left, List.drop_left]
        refine .inl ⟨_, hcut, {
          hawaits with
          content := hrest
          scanned := Nat.zero_le _
          admits := fun other hother => hawaits.admits other (.tail _ hother)
          scan := ?_ }⟩
        intro next hnext
        cases messages with
        | nil => cases hnext
        | cons first others =>
            cases hnext
            rw [List.drop_zero, hrest]
            exact owes_start (hawaits.admits next (.tail _ (.head _))).complete
    | wanting passed hbefore hrest hposition howed =>
        rw [hbehind] at hbefore
        have hended := hawaits.not_ended hbefore
        have hcut : state.cut = (.ok .wanting, { state with scan }) := by
          have hsmall : ¬state.config.maxSize < state.buffer.length := by
            have := hadmits.size
            rw [hawaits.configured]
            omega
          simp only [cut, hempty, if_false, hresume, hsmall, hended, Bool.not_false, if_true]
        have hscanned : scan.position ≤ state.buffer.length := by
          rw [hrest, List.length_append] at hbehind
          omega
        refine .inr ⟨_, hcut, { hawaits with scanned := hscanned, scan := ?_ }⟩
        intro next hnext
        cases hnext
        rw [List.drop_append_of_le_length hscanned, hposition, ← List.drop_drop, hrest,
          List.drop_left]
        exact howed

theorem Awaits.fetched {bytes : Bytes} {source : Source} {ended : Bool}
    (hawaits : state.Awaits config messages) (hsteady : source.Steady)
    (hcontent : state.source.content = bytes ++ source.content)
    (hended : ended = true → source.content = []) :
    Awaits config messages { state with source, buffer := state.buffer ++ bytes, ended } := by
  have hall : (state.buffer ++ bytes) ++ source.content = state.buffer ++ state.source.content := by
    rw [hcontent, List.append_assoc]
  refine {
    hawaits with
    steady := hsteady
    ended := hended
    content := hall.trans hawaits.content
    scanned := ?_
    scan := ?_ }
  · exact Nat.le_trans hawaits.scanned (by rw [List.length_append]; exact Nat.le_add_right _ _)
  · intro message hmember
    simp only [hall]
    exact hawaits.scan message hmember

theorem Awaits.fetch (hvalid : config.Valid) (hawaits : state.Awaits config messages) :
    ∃ bytes source, state.source.fetch state.config.bufferSize = (.ok bytes, source) ∧
      source.Steady ∧ state.source.content = bytes ++ source.content ∧
      (bytes = [] → state.source.content = []) := by
  have hroom : 0 < state.config.bufferSize := by
    rw [hawaits.configured]
    exact hvalid.bufferSize_pos
  obtain ⟨bytes, source, hfetch, hsteady, hcontent, -, hend⟩ := hawaits.steady.fetch hroom
  exact ⟨bytes, source, hfetch, hsteady, hcontent, hend⟩

theorem Awaits.fetch_end {source : Source} (hvalid : config.Valid)
    (hawaits : state.Awaits config messages)
    (hfetch : state.source.fetch state.config.bufferSize = (.ok [], source)) :
    Awaits config messages { state with source, ended := true } := by
  obtain ⟨bytes, last, hfetched, hsteady, hcontent, hend⟩ := hawaits.fetch hvalid
  rw [hfetch] at hfetched
  cases hfetched
  have hnone : source.content = [] := by
    rw [← hend rfl, hcontent]
    rfl
  have hended : Awaits config messages
      { state with source, buffer := state.buffer ++ [], ended := true } :=
    hawaits.fetched hsteady hcontent fun _ => hnone
  rwa [List.append_nil] at hended

theorem Awaits.fetch_more {source : Source} {byte : UInt8} {bytes : Bytes}
    (hvalid : config.Valid) (hawaits : state.Awaits config messages)
    (hfetch : state.source.fetch state.config.bufferSize = (.ok (byte :: bytes), source)) :
    Awaits config messages { state with source, buffer := state.buffer ++ byte :: bytes } := by
  obtain ⟨_, last, hfetched, hsteady, hcontent, -⟩ := hawaits.fetch hvalid
  rw [hfetch] at hfetched
  cases hfetched
  refine hawaits.fetched hsteady hcontent fun hended => ?_
  rw [hawaits.ended hended] at hcontent
  cases hcontent

theorem Awaits.fetch_ok {source : Source} {failure : IoFailure} (hvalid : config.Valid)
    (hawaits : state.Awaits config messages) :
    state.source.fetch state.config.bufferSize ≠ (.error failure, source) := by
  intro hfetch
  obtain ⟨_, _, hfetched, -⟩ := hawaits.fetch hvalid
  rw [hfetch] at hfetched
  cases hfetched

theorem Awaits.wanting (hawaits : state.Awaits config messages)
    (hcut : state.cut = (.ok .wanting, after)) : after.Awaits config messages := by
  cases messages with
  | nil =>
      obtain ⟨hbuffer, -⟩ := List.append_eq_nil_iff.mp hawaits.content
      rw [cut_empty hbuffer] at hcut
      obtain ⟨-, rfl⟩ := Prod.mk.inj hcut
      exact hawaits
  | cons message messages =>
      rcases hawaits.cut_cons with ⟨_, hfound, -⟩ | ⟨_, hfound, hafter⟩
      · rw [hcut] at hfound
        cases hfound
      · rw [hcut] at hfound
        cases hfound
        exact hafter

/-- The parse of the next message, whatever comes of it. -/
theorem Awaits.next_cons (hvalid : config.Valid)
    (hawaits : state.Awaits config (message :: messages)) :
    ∃ after,
      state.next =
        ((Tree.parseWithin config config.maxDepth message.bytes).map some, after) ∧
      after.Awaits config messages := by
  fun_induction State.next state with
  | case1 state error after hcut =>
      rcases hawaits.cut_cons with ⟨_, hfound, -⟩ | ⟨_, hfound, -⟩ <;>
      · rw [hcut] at hfound
        cases hfound
  | case2 state bytes after hcut =>
      rcases hawaits.cut_cons with ⟨_, hfound, hafter⟩ | ⟨_, hfound, -⟩
      · rw [hcut] at hfound
        cases hfound
        rw [hafter.configured, hafter.bounded]
        exact ⟨after, rfl, hafter⟩
      · rw [hcut] at hfound
        cases hfound
  | case3 state after hcut =>
      rcases hawaits.cut_cons with ⟨_, hfound, -⟩ | ⟨_, hfound, -⟩ <;>
      · rw [hcut] at hfound
        cases hfound
  | case4 state after hcut source hfetch hlive =>
      rw [(hawaits.wanting hcut).live] at hlive
      cases hlive
  | case5 state after hcut source hfetch _ ih =>
      exact ih ((hawaits.wanting hcut).fetch_end hvalid hfetch)
  | case6 state after hcut byte bytes source hfetch ih =>
      exact ih ((hawaits.wanting hcut).fetch_more hvalid hfetch)
  | case7 state after hcut failure source hfetch =>
      exact absurd hfetch ((hawaits.wanting hcut).fetch_ok hvalid)
  | case8 state after hcut failure source hfetch =>
      exact absurd hfetch ((hawaits.wanting hcut).fetch_ok hvalid)

theorem Awaits.next_tree (hvalid : config.Valid) (hnode : config.node = true)
    (hreserves : config.Reserves) (hawaits : state.Awaits config (message :: messages)) :
    ∃ tree after, state.next = (.ok (some tree), after) ∧
      Tree.parseWithin config config.maxDepth message.bytes = .ok tree ∧
      after.Awaits config messages := by
  have hadmits := hawaits.admits message (.head _)
  obtain ⟨tree, hparse, -⟩ := Tree.parseWithin_ok hvalid hnode hreserves hadmits.complete
    hadmits.depth hadmits.size hadmits.nodes
  obtain ⟨after, hnext, hafter⟩ := hawaits.next_cons hvalid
  rw [hparse] at hnext
  exact ⟨tree, after, hnext, hparse, hafter⟩

theorem Awaits.next_nil (hvalid : config.Valid) (hawaits : state.Awaits config []) :
    ∃ after, state.next = (.ok none, after) := by
  have hcut := cut_empty (List.append_eq_nil_iff.mp hawaits.content).1
  fun_induction State.next state with
  | case1 state error after hfound =>
      rw [hcut] at hfound
      cases hfound
  | case2 state bytes after hfound =>
      rw [hcut] at hfound
      cases hended : state.ended <;> rw [hended] at hfound <;> cases hfound
  | case3 state after hfound => exact ⟨after, rfl⟩
  | case4 state after hfound source hfetch hlive => exact ⟨_, rfl⟩
  | case5 state after hfound source hfetch _ ih =>
      have hended := (hawaits.wanting hfound).fetch_end hvalid hfetch
      exact ih hended (cut_empty (List.append_eq_nil_iff.mp hended.content).1)
  | case6 state after hfound byte bytes source hfetch ih =>
      have hmore := (hawaits.wanting hfound).fetch_more hvalid hfetch
      exact ih hmore (cut_empty (List.append_eq_nil_iff.mp hmore.content).1)
  | case7 state after hfound failure source hfetch => exact ⟨_, rfl⟩
  | case8 state after hfound failure source hfetch =>
      exact absurd hfetch ((hawaits.wanting hfound).fetch_ok hvalid)

end Stream.State

namespace Stream

variable {config : Config} {source : Source} {state : State} {message : Message}
  {messages : List Message}

theorem pull_none {after : State} (hnext : state.next = (.ok none, after)) :
    pull { state } = (none, { state := after }) := by
  simp only [pull, next, Latch.call, hnext]

theorem pull_tree {tree : Tree} {after : State} (hnext : state.next = (.ok (some tree), after)) :
    pull { state } = (some (.ok tree), { state := after }) := by
  simp only [pull, next, Latch.call, hnext]

theorem pull_error {error : Error} {after : State} (hnext : state.next = (.error error, after)) :
    pull { state } = (some (.error error), { state := after, error? := some error }) := by
  simp only [pull, next, Latch.call, hnext]

theorem next_of_pull_none {last : Stream} (hpull : pull { state } = (none, last)) :
    ∃ after, state.next = (.ok none, after) := by
  rcases hnext : state.next with ⟨_ | _ | tree, after⟩
  · rw [pull_error hnext] at hpull
    cases hpull
  · exact ⟨after, rfl⟩
  · rw [pull_tree hnext] at hpull
    cases hpull

theorem next_of_pull_tree {last : Stream} {tree : Tree}
    (hpull : pull { state } = (some (.ok tree), last)) :
    ∃ after, state.next = (.ok (some tree), after) ∧ last = { state := after } := by
  rcases hnext : state.next with ⟨_ | _ | found, after⟩
  · rw [pull_error hnext] at hpull
    cases hpull
  · rw [pull_none hnext] at hpull
    cases hpull
  · rw [pull_tree hnext] at hpull
    cases hpull
    exact ⟨after, rfl, rfl⟩

/-! What is collected, by what is pulled first. -/

section

variable {stream after : Stream} {found : Array Tree}

theorem collect_none (hpull : pull stream = (none, after)) :
    Stream.collect found stream = (found.toList, none) := by
  rw [Stream.collect]
  split
  · rfl
  · next hfound => cases hpull.symm.trans hfound
  · next hfound => cases hpull.symm.trans hfound

theorem collect_error {error : Error} (hpull : pull stream = (some (.error error), after)) :
    Stream.collect found stream = (found.toList, some error) := by
  rw [Stream.collect]
  split
  · next hfound => cases hpull.symm.trans hfound
  · next hfound =>
      cases hpull.symm.trans hfound
      rfl
  · next hfound => cases hpull.symm.trans hfound

theorem collect_tree {tree : Tree} (hpull : pull stream = (some (.ok tree), after)) :
    Stream.collect found stream = Stream.collect (found.push tree) after := by
  rw [Stream.collect]
  split
  · next hfound => cases hpull.symm.trans hfound
  · next hfound => cases hpull.symm.trans hfound
  · next hfound =>
      cases hpull.symm.trans hfound
      rfl

end

/-- Behind trees already found, the tree of every message to come, and no error. -/
theorem collect_parsed (hvalid : config.Valid) (hnode : config.node = true)
    (hreserves : messages ≠ [] → config.Reserves) (hawaits : state.Awaits config messages)
    (found : Array Tree) :
    ∃ trees, Stream.collect found { state } = (found.toList ++ trees, none) ∧
      (messages.mapM fun message => Tree.parseWithin config config.maxDepth message.bytes) =
        .ok trees := by
  induction messages generalizing state found with
  | nil =>
      obtain ⟨after, hnext⟩ := hawaits.next_nil hvalid
      refine ⟨[], ?_, rfl⟩
      rw [collect_none (pull_none hnext), List.append_nil]
  | cons message messages ih =>
      have hgranted := hreserves (List.cons_ne_nil _ _)
      obtain ⟨tree, after, hnext, hparse, hafter⟩ := hawaits.next_tree hvalid hnode hgranted
      obtain ⟨trees, hcollect, htrees⟩ := ih (fun _ => hgranted) hafter (found.push tree)
      refine ⟨tree :: trees, ?_, ?_⟩
      · rw [collect_tree (pull_tree hnext), hcollect, Array.toList_push, List.append_assoc]
        rfl
      · rw [List.mapM_cons, hparse, htrees]
        rfl

/-- Parsed trees hold the values that the messages stand for. -/
theorem mapM_ofTree {trees : List Tree}
    (hcomplete : ∀ message ∈ messages, message.Complete config.tagOptions)
    (hparsed : (messages.mapM fun message =>
      Tree.parseWithin config config.maxDepth message.bytes) = .ok trees) :
    trees.mapM Value.ofTree = Message.values messages := by
  induction messages generalizing trees with
  | nil =>
      cases hparsed
      rfl
  | cons message messages ih =>
      rw [List.mapM_cons] at hparsed
      obtain ⟨tree, hparse, hparsed⟩ := bind_eq_ok hparsed
      obtain ⟨others, hothers, hpure⟩ := bind_eq_ok hparsed
      cases hpure
      have hvalue := Tree.ofTree_of_parseWithin (hcomplete message (.head _)) hparse
      rw [List.mapM_cons, hvalue, Message.values,
        ih (fun other hother => hcomplete other (.tail _ hother)) hothers]

theorem collect_awaits (hvalid : config.Valid) (hnode : config.node = true)
    (hreserves : messages ≠ [] → config.Reserves) (hawaits : state.Awaits config messages)
    (found : Array Tree) :
    ∃ trees, Stream.collect found { state } = (found.toList ++ trees, none) ∧
      trees.mapM Value.ofTree = Message.values messages := by
  obtain ⟨trees, hcollect, hparsed⟩ := collect_parsed hvalid hnode hreserves hawaits found
  exact ⟨trees, hcollect,
    mapM_ofTree (fun message hmember => (hawaits.admits message hmember).complete) hparsed⟩

/-- Nothing more is found where the next message is not parsed. -/
theorem collect_unparsed {error : Error} (hvalid : config.Valid)
    (hawaits : state.Awaits config (message :: messages))
    (hparse : Tree.parseWithin config config.maxDepth message.bytes = .error error)
    (found : Array Tree) : Stream.collect found { state } = (found.toList, some error) := by
  obtain ⟨after, hnext, -⟩ := hawaits.next_cons hvalid
  rw [hparse] at hnext
  exact collect_error (pull_error hnext)

theorem create_awaits (hvalid : config.Valid) (hnode : config.node = true)
    (hsteady : source.Steady) (hadmits : ∀ message ∈ messages, config.Admits message)
    (hcontent : source.content = Message.text messages) :
    ∃ state, Stream.create config source = .ok { state } ∧ state.Awaits config messages := by
  refine ⟨{ source, config, maxDepth := config.maxDepth }, ?_, rfl, rfl, rfl, hsteady,
    fun hended => (by cases hended), hadmits, hcontent, Nat.le_refl 0, ?_⟩
  · rw [Stream.create, hvalid.validate, requireFeature_on hnode]
    rfl
  · intro message hmessage
    cases messages with
    | nil => cases hmessage
    | cons first others =>
        cases hmessage
        rw [List.nil_append, hcontent]
        exact State.owes_start (hadmits message (.head _)).complete

end Stream
end MessagePack
