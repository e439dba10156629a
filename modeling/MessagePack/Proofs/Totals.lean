import Mathlib.Algebra.BigOperators.Group.List.Basic
import Mathlib.Algebra.Ring.Nat
import Mathlib.Data.List.Fold
import MessagePack.Command.Run
import MessagePack.Proofs.Arrival
import MessagePack.Proofs.Interchange
import MessagePack.Proofs.Parts
import MessagePack.Proofs.Report
import MessagePack.Proofs.Streaming

/-!
What a file of messages amounts to. The commands that go through a file succeed exactly if it holds
messages and nothing else, and their totals leave out no message and no node of one.
-/

namespace MessagePack

namespace Stream

variable {config : Config} {maxDepth : Nat} {bytes : Bytes} {state : State} {found : Array Tree}

/-- A stream is gone through without an error only if there are messages to the end of the
source. -/
theorem admits_of_collect (hvalid : config.Valid) (hnode : config.node = true)
    (hnodes : 1 ≤ config.maxNodes) (hfed : state.Fed config false config.maxDepth bytes)
    (hcollect : (collect found { state }).2 = none) :
    ∃ messages : List Message, (∀ message ∈ messages, config.Admits message) ∧
      Message.text messages = bytes := by
  have hroom := hvalid.bufferSize_pos
  generalize hstream : ({ state } : Stream) = stream at hcollect
  fun_induction collect found stream generalizing state bytes with
  | case1 found stream after hpull =>
      subst hstream
      obtain ⟨middle, hnext⟩ := next_of_pull_none hpull
      exact ⟨[], fun _ hmember => absurd hmember List.not_mem_nil,
        (hfed.next_none hroom hnext).symm⟩
  | case2 found stream error after hpull => cases hcollect
  | case3 found stream tree after hpull ih =>
      subst hstream
      obtain ⟨middle, hnext, rfl⟩ := next_of_pull_tree hpull
      have hgives := hfed.next hroom
      rw [hnext] at hgives
      cases hgives with
      | @tree n _ _ hlength hparse hafter _ =>
          obtain ⟨message, hcomplete, hbytes, hadmits⟩ :=
            Tree.admitted_of_parseWithin hvalid hnode hnodes hparse
          obtain ⟨messages, hothers, htext⟩ := ih hafter rfl hcollect
          refine ⟨message :: messages, fun other hother => ?_, ?_⟩
          · rcases List.mem_cons.mp hother with rfl | hother
            · exact ⟨hcomplete, hadmits.depth, hadmits.size, hadmits.nodes⟩
            · exact hothers other hother
          · rw [Message.text, hbytes, htext, List.take_append_drop]

end Stream

/-! The trees of messages, and what they come to together. -/

namespace Message

theorem outlines_eq_flatMap (messages : List Message) :
    outlines messages = messages.flatMap outline := by
  induction messages with
  | nil => rfl
  | cons message messages ih => rw [outlines, ih, List.flatMap_cons]

/-- The tags of the nodes of one kind. -/
def tagsOf (messages : List Message) (kind : Kind) : List Tag :=
  ((outlines messages).map Prod.fst).filter fun tag => tag.kind = kind

theorem length_text (messages : List Message) :
    (text messages).length = (messages.map fun message => message.bytes.length).sum := by
  rw [← flatten_bytes, List.length_flatten, List.map_map]
  rfl

end Message

namespace Tree

variable {config : Config} {maxDepth : Nat} {messages : List Message} {trees : List Tree}

/-- What each tree says of its message, all of them say in the same order. -/
theorem map_of_mapM {look : Tree → β} {wanted : Message → β}
    (hsame : ∀ (message : Message) (tree : Tree), message.Complete config.tagOptions →
      parseWithin config maxDepth message.bytes = .ok tree → look tree = wanted message)
    (hcomplete : ∀ message ∈ messages, message.Complete config.tagOptions)
    (hparsed : (messages.mapM fun message => parseWithin config maxDepth message.bytes) =
      .ok trees) : trees.map look = messages.map wanted := by
  induction messages generalizing trees with
  | nil =>
      cases hparsed
      rfl
  | cons message messages ih =>
      rw [List.mapM_cons] at hparsed
      obtain ⟨tree, hparse, hparsed⟩ := bind_eq_ok hparsed
      obtain ⟨others, hothers, hpure⟩ := bind_eq_ok hparsed
      cases hpure
      rw [List.map_cons, List.map_cons, hsame message tree (hcomplete message (.head _)) hparse,
        ih (fun other hother => hcomplete other (.tail _ hother)) hothers]

theorem depth_of_parseWithin {message : Message} {tree : Tree}
    (hcomplete : message.Complete config.tagOptions)
    (hparse : parseWithin config maxDepth message.bytes = .ok tree) :
    tree.depth = message.depth := by
  obtain ⟨whole, hwhole, hbytes, -, hdepth⟩ := shows_of_parseWithin hparse
  obtain ⟨rfl, -⟩ := hwhole.unique hcomplete (congrArg (· ++ []) hbytes)
  exact hdepth

theorem size_of_parseWithin {bytes : Bytes} {tree : Tree}
    (hparse : parseWithin config maxDepth bytes = .ok tree) : tree.size = bytes.length := by
  obtain ⟨-, -, -, hinput, -⟩ := parseWithin_eq_ok hparse
  rw [size, hinput]
  rfl

end Tree

namespace Statistics

/-- Every node is of one kind. -/
theorem sum_count (statistics : Statistics) :
    (Kind.all.map statistics.count).sum = statistics.nodes := by
  obtain ⟨messages, depth, tags⟩ := statistics
  induction tags with
  | nil => rfl
  | cons tag tags ih =>
      have hone : ∀ kind : Kind,
          (Kind.all.map fun other => if kind = other then 1 else 0).sum = 1 := by
        intro kind
        cases kind <;> rfl
      have hcount : ∀ kind, count ⟨messages, depth, tag :: tags⟩ kind =
          (if tag.kind = kind then 1 else 0) + count ⟨messages, depth, tags⟩ kind := by
        intro kind
        by_cases hkind : tag.kind = kind
        · simp [count, tagsOf, hkind, Nat.add_comm]
        · simp [count, tagsOf, hkind]
      rw [funext hcount, List.sum_map_add, hone, ih, nodes, nodes, List.length_cons, Nat.add_comm]

/-- The statistics of the trees of these messages, in terms of the trees and of the messages. -/
structure Sums (messages : List Message) (trees : List Tree) : Prop where
  length : (ofTrees trees).messages = messages.length
  depths : trees.map Tree.depth = messages.map Message.depth
  depth : (ofTrees trees).depth = (trees.map Tree.depth).foldr max 0
  nodes : (ofTrees trees).nodes = (trees.map Tree.nodeCount).sum
  counts : (trees.map Tree.nodeCount).sum =
    (Kind.all.map fun kind => (Message.tagsOf messages kind).length).sum
  tags : (ofTrees trees).tagsOf = Message.tagsOf messages

theorem sums_of_mapM {config : Config} {maxDepth : Nat} {messages : List Message}
    {trees : List Tree} (hcomplete : ∀ message ∈ messages, message.Complete config.tagOptions)
    (hparsed : (messages.mapM fun message => Tree.parseWithin config maxDepth message.bytes) =
      .ok trees) : Sums messages trees := by
  have hdepths := Tree.map_of_mapM (fun _ _ => Tree.depth_of_parseWithin) hcomplete hparsed
  have hcounts := Tree.map_of_mapM (fun _ _ => Tree.nodeCount_of_parseWithin) hcomplete hparsed
  have htags := Tree.map_of_mapM (fun _ _ => Tree.tags_of_parseWithin) hcomplete hparsed
  have hall : (ofTrees trees).tags = (Message.outlines messages).map Prod.fst := by
    rw [ofTrees, List.flatMap_def, htags, Message.outlines_eq_flatMap, List.map_flatMap,
      List.flatMap_def]
  have hkinds : (ofTrees trees).tagsOf = Message.tagsOf messages := by
    funext kind
    rw [tagsOf, hall, Message.tagsOf]
  have hnodes : (ofTrees trees).nodes = (trees.map Tree.nodeCount).sum := by
    rw [nodes, hall, List.length_map, hcounts, Message.outlines_eq_flatMap, List.length_flatMap]
    exact congrArg List.sum (List.map_congr_left fun message _ => message.length_outline)
  refine ⟨?_, hdepths, ?_, hnodes, ?_, hkinds⟩
  · have hlength := congrArg List.length hdepths
    rwa [List.length_map, List.length_map] at hlength
  · rw [ofTrees, ← List.foldl_eq_foldr, List.foldl_map]
  · rw [← hnodes, ← sum_count, ← hkinds]
    rfl

end Statistics

/-! Commands on a file. -/

/-- Complete messages as the flags have it, none of them nested too deep. -/
def Format.Accepts (format : Format) (messages : List Message) : Prop :=
  ∀ message ∈ messages,
    message.Complete format.config.tagOptions ∧ message.depth ≤ format.maxDepth

theorem Format.admits_iff {format : Format} {messages : List Message}
    (hlength : (Message.text messages).length < UInt32.size) :
    (∀ message ∈ messages, format.config.Admits message) ↔ format.Accepts messages := by
  constructor
  · intro hadmits message hmember
    exact ⟨(hadmits message hmember).complete, (hadmits message hmember).depth⟩
  · intro haccepts message hmember
    obtain ⟨hcomplete, hdepth⟩ := haccepts message hmember
    have hbytes := (Message.bytes_infix_text hmember).length_le
    have hnodes := hcomplete.nodes_le
    have hroom : UInt32.size ≤ MessagePack.maxSize := by decide
    exact ⟨hcomplete, hdepth, by simp only [Format.config]; omega,
      by simp only [Format.config]; omega⟩

namespace Command

/-- The tasks that go through a file message by message. -/
inductive Surveys (file : String) : Task → Prop
  | inspect (layout : Tree.Layout) : Surveys file (.inspect file layout)
  | validate : Surveys file (.validate file)
  | stats : Surveys file (.stats file)

/-- What is said of a file that holds so many messages of so many bytes. -/
def validated (count bytes depth : Nat) : String :=
  "✓ Messages: " ++ toString count ++ " parsed successfully (" ++ toString bytes ++ " byte" ++
    (if bytes = 1 then "" else "s") ++ ")\n" ++ ("✓ Depth: at most " ++ toString depth ++ "\n")

section Run

variable {format : Format} {file : String} {look : String → Place} {task : Task}
  {stream : Stream} {trees : List Tree}

theorem code_run (htask : Surveys file task)
    (hopen : openMessages format file (look file) = .ok stream) :
    (run { task, format } look).code = 0 ↔ (stream.collect #[]).2 = none := by
  rcases hcollect : stream.collect #[] with ⟨trees, error?⟩
  cases htask <;> cases error? <;>
    simp [run, Command.inspect, Command.validate, Command.stats, hopen, readMessages, hcollect,
      bind, Except.bind, pure, Except.pure, Outcome.ofExcept, Outcome.code, Outcome.failed, throw,
      throwThe, MonadExceptOf.throw]

theorem text_validate (hopen : openMessages format file (look file) = .ok stream)
    (hcollect : stream.collect #[] = (trees, none)) :
    (run { task := .validate file, format } look).text =
      validated trees.length (trees.map Tree.size).sum ((trees.map Tree.depth).foldr max 0) := by
  have hsize : trees.foldl (fun bytes tree => bytes + tree.size) 0 =
      (trees.map Tree.size).sum := by
    rw [List.sum_eq_foldl, List.foldl_map]
  have hdepth : trees.foldl (fun depth tree => max depth tree.depth) 0 =
      (trees.map Tree.depth).foldr max 0 := by
    rw [← List.foldl_eq_foldr, List.foldl_map]
  have hrun : run { task := .validate file, format } look =
      Outcome.ofExcept (Command.validate format file (look file)) := rfl
  rw [hrun, Command.validate, hopen]
  simp only [bind, Except.bind, pure, Except.pure]
  rw [hcollect]
  simp only [hsize, hdepth]
  rfl

theorem text_stats {content : Bytes} (hfile : (look file).content = .ok content)
    (hopen : openMessages format file (look file) = .ok stream)
    (hcollect : stream.collect #[] = (trees, none)) :
    (run { task := .stats file, format } look).text =
      (Statistics.ofTrees trees).report file content.length := by
  simp only [run, Command.stats, hopen, hfile, readMessages, hcollect, bind, Except.bind, pure,
    Except.pure, Outcome.ofExcept, Except.toOption, Option.map_none, Option.getD_some]

end Run

theorem openMessages_content (format : Format) (file : String) {place : Place} {content : Bytes}
    (hcontent : place.content = .ok content) :
    ∃ state : Stream.State, openMessages format file place = .ok { state } ∧
      state.Fed format.config false format.config.maxDepth content ∧
      ∀ messages : List Message, (∀ message ∈ messages, format.config.Admits message) →
        Message.text messages = content → state.Awaits format.config messages := by
  have hvalid := format.valid_config
  have hsteady := Source.steady_chunk content
  have hwhole : Source.content { deliveries := [.chunk content] } = content := List.append_nil _
  obtain ⟨state, hcreate, -, -, hfed, -⟩ := Stream.create_ok hvalid rfl hsteady
  rw [hwhole] at hfed
  refine ⟨state, ?_, hfed, fun messages hadmits htext => ?_⟩
  · rw [openMessages, sourceAt, hcontent]
    simp only [bind, Except.bind, hcreate]
    rfl
  · obtain ⟨other, hother, hawaits⟩ :=
      Stream.create_awaits hvalid rfl hsteady hadmits (hwhole.trans htext.symm)
    cases hcreate.symm.trans hother
    exact hawaits

/-- What a file comes to, task by task. The commands that go through it succeed if it holds
complete messages that are not too deep, and only then; none of them is left out of the totals, and
no node of any. -/
theorem run_totals {content : Bytes} (hlength : content.length < UInt32.size) {file : String}
    {look : String → Place} (hfile : (look file).content = .ok content) (format : Format) :
    (∀ task, Surveys file task → ((run { task, format } look).code = 0 ↔
      ∃ messages : List Message, format.Accepts messages ∧ Message.text messages = content)) ∧
    ∀ messages : List Message, format.Accepts messages → Message.text messages = content →
      ∃ trees, (messages.mapM fun message => Tree.parse format.config message.bytes) = .ok trees ∧
        Statistics.Sums messages trees ∧
        (run { task := .validate file, format } look).text =
          validated messages.length content.length ((trees.map Tree.depth).foldr max 0) ∧
        (run { task := .stats file, format } look).text =
          surveyed file content.length messages.length (trees.map Tree.nodeCount).sum
            ((trees.map Tree.depth).foldr max 0) (Message.tagsOf messages) := by
  have hvalid := format.valid_config
  have hroom : 1 ≤ format.config.maxNodes := show 1 ≤ MessagePack.maxSize by decide
  obtain ⟨state, hopen, hfed, hawaits⟩ := openMessages_content format file hfile
  have hcollects : ∀ messages, format.Accepts messages → Message.text messages = content →
      ∃ trees, Stream.collect #[] { state } = (trees, none) ∧
        (messages.mapM fun message => Tree.parse format.config message.bytes) = .ok trees := by
    intro messages haccepts htext
    have hadmits := (Format.admits_iff (htext ▸ hlength)).mpr haccepts
    exact Stream.collect_parsed hvalid rfl (fun _ => format.reserves_config)
      (hawaits messages hadmits htext) #[]
  refine ⟨fun task htask => ⟨fun hzero => ?_, ?_⟩, fun messages haccepts htext => ?_⟩
  · obtain ⟨messages, hadmits, htext⟩ :=
      Stream.admits_of_collect hvalid rfl hroom hfed ((code_run htask hopen).mp hzero)
    exact ⟨messages, (Format.admits_iff (htext ▸ hlength)).mp hadmits, htext⟩
  · rintro ⟨messages, haccepts, htext⟩
    obtain ⟨trees, hcollect, -⟩ := hcollects messages haccepts htext
    rw [code_run htask hopen, hcollect]
  · obtain ⟨trees, hcollect, hparsed⟩ := hcollects messages haccepts htext
    have hcomplete : ∀ message ∈ messages, message.Complete format.config.tagOptions :=
      fun message hmember => (haccepts message hmember).1
    have hsizes := Tree.map_of_mapM (fun _ _ _ => Tree.size_of_parseWithin) hcomplete hparsed
    have hsums := Statistics.sums_of_mapM hcomplete hparsed
    have hnumber : trees.length = messages.length := hsums.length
    have hbytes : (trees.map Tree.size).sum = content.length := by
      rw [hsizes, ← Message.length_text, htext]
    refine ⟨trees, hparsed, hsums, ?_, ?_⟩
    · rw [text_validate hopen hcollect, hnumber, hbytes]
    · rw [text_stats hfile hopen hcollect, Statistics.report_eq, hsums.length, hsums.nodes,
        hsums.depth, hsums.tags]

/-- An array of an integer and a text, and a nil behind it. -/
theorem run_totals_pair :
    ∃ look : String → Place, (look "two").content = .ok [0x92, 0x01, 0xa1, 0x61, 0xc0] ∧
      (run { task := .stats "two" } look).code = 0 ∧
        (run { task := .validate "two" } look).text =
          "✓ Messages: 2 parsed successfully (5 bytes)\n✓ Depth: at most 1\n" ∧
        (run { task := .stats "two" } look).text =
          "File:       two\nSize:       5 bytes\nMessages:   2\nNodes:      4\nMax depth:  1\n\n" ++
          "Kind       Count   Payload\n──────────────────────────\n" ++
          "nil            1\nuint           1\nstr            1       1 B\narray          1\n" := by
  let items : List Message := [.node [0x01] (.uint 1) [] [], .node [0xa1] (.str 1) [0x61] []]
  let messages : List Message := [.node [0x92] (.array 2) [] items, .node [0xc0] .nil [] []]
  have hitems : ∀ child ∈ items, child.Complete {} := by
    intro child hchild
    simp only [items, List.mem_cons, List.not_mem_nil, or_false] at hchild
    rcases hchild with rfl | rfl <;> exact .node rfl rfl rfl fun _ hnone => by cases hnone
  have haccepts : Format.Accepts {} messages := by
    intro message hmember
    simp only [messages, List.mem_cons, List.not_mem_nil, or_false] at hmember
    rcases hmember with rfl | rfl
    · exact ⟨.node rfl rfl rfl hitems, by decide⟩
    · exact ⟨.node rfl rfl rfl fun _ hnone => (by cases hnone), by decide⟩
  let look : String → Place := fun _ =>
    { content := .ok [0x92, 0x01, 0xa1, 0x61, 0xc0], writable := .ok () }
  have hfile : (look "two").content = .ok [0x92, 0x01, 0xa1, 0x61, 0xc0] := rfl
  obtain ⟨hcode, htotals⟩ := run_totals (by decide) hfile {}
  obtain ⟨trees, -, hsums, hvalidate, hstats⟩ := htotals messages haccepts rfl
  rw [hsums.depths] at hvalidate hstats
  rw [hsums.counts] at hstats
  refine ⟨look, hfile, (hcode _ .stats).mpr ⟨messages, haccepts, rfl⟩, hvalidate.trans ?_,
    hstats.trans ?_⟩
  · decide +kernel
  · decide +kernel

end Command

end MessagePack
