import MessagePack.Proofs.Balance
import MessagePack.Proofs.Performed

/-!
Tracked writing. Whatever is called, and in whatever order: as long as no call fails, what a
writer leaves in the end is complete messages, one for each value begun outside every compound.
-/

namespace MessagePack

namespace Writer

def Call.beginsValue : Call → Bool
  | .tag _ | .str _ | .bin _ | .ext _ _ | .object _ | .beginBuild _ => true
  | .bytes _ | .finishCompound _ | .completeBuild _ | .flush | .finish => false

/-- Values that some calls begin while nothing is open. -/
def rootCount : List Call → Writer → Nat
  | [], _ => 0
  | call :: calls, writer =>
      (if call.beginsValue ∧ writer.depth = 0 then 1 else 0) +
        rootCount calls (perform call writer).2

end Writer

namespace Draft

variable {config : Config} {before : Bytes} {draft after : Draft} {roots : Nat}

def rootsAfter (roots : Nat) (draft : Draft) : Nat :=
  roots + if draft.nesting.frames = [] then 1 else 0

theorem Balanced.tag (hbalanced : draft.Balanced config.tagOptions before 0 roots) {tag : Tag}
    (htag : Draft.tag config tag draft = (.ok (), after)) :
    after.Balanced config.tagOptions before 0 (rootsAfter roots draft) := by
  obtain ⟨header, counted, nesting, hheader, hcounted, hentered, rfl⟩ := tag_eq_ok htag
  have hdue := hbalanced.element hcounted
  have hdecode := Header.decode_encoded hheader
  cases hopens : tag.opens? with
  | none =>
      simp only [Tag.isCompound, hopens, Option.isSome_none, Bool.false_eq_true, if_false]
      simp only [Nesting.enterTag, hopens] at hentered
      cases hentered
      refine hdue.message (.scalar hdecode ?_ ?_)
      · rw [Tag.payloadLength_asRead, Tag.payloadLength_of_scalar hopens]
      · rw [Tag.childCount_asRead, Tag.childCount_of_scalar hopens]
  | some opened =>
      simp only [Tag.isCompound, hopens, Option.isSome_some, if_true]
      simp only [Nesting.enterTag, hopens] at hentered
      rw [Nesting.push_eq_ok hdue.enabled hentered]
      exact hdue.enter hdecode ((Frame.opened hopens).asRead _)

theorem Balanced.bytes_call (hbalanced : draft.Balanced config.tagOptions before 0 roots)
    {payload : Bytes} (hbytes : Draft.bytes config payload draft = (.ok (), after)) :
    after.Balanced config.tagOptions before 0 roots := by
  obtain ⟨nesting, hnesting, rfl⟩ := bytes_eq_ok hbytes
  exact hbalanced.bytes hnesting

theorem Balanced.finishCompound (hbalanced : draft.Balanced config.tagOptions before 0 roots)
    {kind : Compound} (hfinish : Draft.finishCompound kind draft = (.ok (), after)) :
    after.Balanced config.tagOptions before 0 roots := by
  obtain ⟨layers, nesting, hlayers, hleave, rfl⟩ := finishCompound_eq_ok hfinish
  exact hbalanced.close hlayers hleave

theorem Balanced.payload (hbalanced : draft.Balanced config.tagOptions before 0 roots)
    {header : UInt32 → Tag} {kind : Compound} {content : Bytes}
    (hpayload : Draft.payload config header kind content draft = (.ok (), after)) :
    after.Balanced config.tagOptions before 0 (rootsAfter roots draft) := by
  obtain ⟨-, first, second, htag, hbytes, hfinish⟩ := payload_eq_ok hpayload
  exact ((hbalanced.tag htag).bytes_call hbytes).finishCompound hfinish

theorem Balanced.object (hbalanced : draft.Balanced config.tagOptions before 0 roots)
    {encoded : Bytes} (hmessage : Messages config.tagOptions 1 encoded)
    (hobject : Draft.object config encoded draft = (.ok (), after)) :
    after.Balanced config.tagOptions before 0 (rootsAfter roots draft) := by
  obtain ⟨nesting, helement, rfl⟩ := object_eq_ok hobject
  exact (hbalanced.element helement).message hmessage

theorem Balanced.beginBuild (hbalanced : draft.Balanced config.tagOptions before 0 roots)
    {kind : Compound} (hbegin : Draft.beginBuild config kind draft = (.ok (), after)) :
    after.Balanced config.tagOptions before 0 (rootsAfter roots draft) := by
  obtain ⟨counted, nesting, hcounted, hentered, rfl⟩ := beginBuild_eq_ok hbegin
  have hdue := hbalanced.element hcounted
  rw [Nesting.push_eq_ok hdue.enabled hentered]
  exact hdue.begin kind

/-- What a header without payload makes of the messages it counts. -/
theorem message_of_encode {options : TagOptions} {tag : Tag} {count : Nat}
    {header text : Bytes} (hencode : Header.encode options tag = .ok header)
    (hpayload : tag.payloadLength? = none) (hcount : tag.childCount? = some count)
    (hmessages : Messages options count text) : Messages options 1 (header ++ text) := by
  have hdecode := Header.decode_encoded hencode
  have hinside : Messages options ((tag.asRead options).childCount?.getD 0 + 0) text := by
    rw [Tag.childCount_asRead, hcount]
    exact hmessages
  have hmessage : Messages options 1 (header ++ [] ++ text) :=
    hinside.enclose hdecode (by rw [Tag.payloadLength_asRead, hpayload]; rfl)
  rwa [List.append_nil] at hmessage

theorem message_of_header {options : TagOptions} {kind : Compound} {count : Nat}
    {header text : Bytes} (hheads : Builder.Heads options kind count header)
    (hmessages : Messages options count text) : Messages options 1 (header ++ text) := by
  rcases hheads.tag with ⟨-, count, hcount, hencode⟩ | ⟨-, pairs, hpairs, hencode⟩
  · exact message_of_encode hencode rfl (congrArg some hcount) hmessages
  · exact message_of_encode hencode rfl (congrArg some hpairs) hmessages

theorem Balanced.completeBuild (hbalanced : draft.Balanced config.tagOptions before 0 roots)
    {kind : Compound} (hcomplete : Draft.completeBuild config kind draft = (.ok (), after)) :
    after.Balanced config.tagOptions before 0 roots := by
  obtain ⟨top, outer, header, nesting, hlayers, rfl, hnested, hheads, hleave, rfl⟩ :=
    completeBuild_eq_ok hcomplete
  exact hbalanced.fold hlayers hnested hleave fun hmessages => message_of_header hheads hmessages

/-- No call upsets the balance, and those that begin a value outside everything add a root. -/
theorem Balanced.perform (hbalanced : draft.Balanced config.tagOptions before 0 roots)
    {call : Writer.Call}
    (hobject : ∀ encoded, call = .object encoded → Messages config.tagOptions 1 encoded)
    (hperform : Draft.perform config call draft = (.ok (), after)) :
    after.Balanced config.tagOptions before 0
      (bif call.beginsValue then rootsAfter roots draft else roots) := by
  cases call with
  | tag value => exact hbalanced.tag hperform
  | bytes content => exact hbalanced.bytes_call hperform
  | finishCompound kind => exact hbalanced.finishCompound hperform
  | str text => exact hbalanced.payload hperform
  | bin content => exact hbalanced.payload hperform
  | ext type content => exact hbalanced.payload hperform
  | object encoded => exact hbalanced.object (hobject encoded rfl) hperform
  | beginBuild kind => exact hbalanced.beginBuild hperform
  | completeBuild kind => exact hbalanced.completeBuild hperform
  | flush =>
      cases hperform
      exact hbalanced
  | finish =>
      obtain ⟨rfl, -⟩ := finish_eq_ok hperform
      exact hbalanced

theorem rootsAfter_eq {state : Writer.State} (hshows : Shows config state draft)
    (call : Writer.Call) :
    (bif call.beginsValue then rootsAfter roots draft else roots) =
      roots + if call.beginsValue ∧ Writer.depth { state } = 0 then 1 else 0 := by
  cases call.beginsValue with
  | false => simp
  | true =>
      simp [rootsAfter, Writer.depth, Nesting.depth, hshows.nesting]

theorem Balanced.run (calls : List Writer.Call) {state : Writer.State} {last : Writer}
    (hshows : Shows config state draft)
    (hbalanced : draft.Balanced config.tagOptions before 0 roots)
    (hobjects : ∀ encoded, Writer.Call.object encoded ∈ calls →
      Messages config.tagOptions 1 encoded)
    (hrun : Writer.run calls { state } = (.ok (), last)) :
    ∃ after, last.error? = none ∧ Shows config last.state after ∧
      after.Balanced config.tagOptions before 0 (roots + Writer.rootCount calls { state }) := by
  induction calls generalizing state draft roots with
  | nil =>
      cases hrun
      exact ⟨draft, rfl, hshows, hbalanced⟩
  | cons call calls ih =>
      obtain ⟨_, middle, hcall, hrest⟩ := Attempt.bind_eq_ok hrun
      obtain ⟨hresult, hafter⟩ := Shows.perform call state draft hshows
      rcases hperform : Writer.State.perform call state with ⟨result, next⟩
      rcases hdraft : Draft.perform config call draft with ⟨outcome, changed⟩
      rw [hperform, hdraft] at hresult hafter
      cases hresult
      cases result with
      | error error =>
          rw [Writer.perform, Latch.call_of_error hperform] at hcall
          cases hcall
      | ok done =>
          rw [Writer.perform, Latch.call_of_ok hperform] at hcall
          cases hcall
          have hnext := hbalanced.perform
            (fun encoded hobject => hobjects encoded (by rw [hobject]; exact List.mem_cons_self))
            hdraft
          rw [rootsAfter_eq hshows] at hnext
          obtain ⟨final, hnone, hfinal, hkept⟩ := ih hafter hnext
            (fun encoded hmember => hobjects encoded (List.mem_cons_of_mem _ hmember)) hrest
          refine ⟨final, hnone, hfinal, ?_⟩
          rw [Writer.rootCount, Writer.perform, Latch.call_of_ok hperform, ← Nat.add_assoc]
          exact hkept

theorem Balanced.messages (hbalanced : draft.Balanced config.tagOptions before 0 roots)
    (hlayers : draft.layers = []) (hframes : draft.nesting.frames = []) :
    ∃ text, Messages config.tagOptions roots text ∧ draft.text = before ++ text := by
  have hupright := hbalanced.upright
  rw [hlayers] at hupright
  generalize draft.nesting.frames = frames at hframes hupright
  cases hupright with
  | outermost htext hlevel =>
      subst hframes
      exact ⟨_, hlevel.messages, htext⟩

end Draft

/-- What a tracked writer leaves when nothing has failed: one complete message for each value
begun outside every compound. -/
theorem Writer.messages_of_run {config : Config} {sink : Sink} {calls : List Call}
    {writer after : Writer} (htracking : config.writeTracking = true) (hsink : sink.Reliable)
    (hobjects : ∀ encoded, Call.object encoded ∈ calls → Messages config.tagOptions 1 encoded)
    (hcreate : create config sink = .ok writer)
    (hrun : run (calls ++ [.finish]) writer = (.ok (), after)) :
    ∃ text, Messages config.tagOptions (rootCount calls writer) text ∧
      after.sink.bytes = sink.bytes ++ text := by
  obtain ⟨state, error?⟩ := writer
  obtain ⟨rfl, hshows⟩ := Draft.Shows.create hsink hcreate
  have hbalanced : (Draft.initial config sink).Balanced config.tagOptions sink.bytes 0 0 :=
    ⟨htracking, .outermost (List.append_nil _).symm .fresh⟩
  rw [run_append] at hrun
  obtain ⟨_, middle, hcalls, hlast⟩ := Attempt.bind_eq_ok hrun
  obtain ⟨draft, hnone, hmiddle, hkept⟩ := hbalanced.run calls hshows hobjects hcalls
  obtain ⟨next, error?⟩ := middle
  subst hnone
  obtain ⟨_, _, hperform, hend⟩ := Attempt.bind_eq_ok hlast
  cases hend
  obtain ⟨hresult, hafter⟩ := Draft.Shows.finish next draft hmiddle
  rcases hfinish : State.finish next with ⟨result, final⟩
  rcases hdraft : Draft.finish draft with ⟨outcome, changed⟩
  rw [hfinish, hdraft] at hresult hafter
  cases hresult
  cases result with
  | error error =>
      rw [perform, State.perform, Latch.call_of_error hfinish] at hperform
      cases hperform
  | ok done =>
      rw [perform, State.perform, Latch.call_of_ok hfinish] at hperform
      cases hperform
      obtain ⟨rfl, hlayers, hframes⟩ := Draft.finish_eq_ok hdraft
      rw [Nat.zero_add] at hkept
      obtain ⟨text, hmessages, htext⟩ := hkept.messages hlayers hframes
      refine ⟨text, hmessages, ?_⟩
      rw [← htext, ← hafter.text]
      exact State.bytes_of_finish hfinish

/-- A built map that holds a ready-made value, then a counted array. -/
theorem Writer.messages_of_run_mixed :
    ∃ writer after text, create {} {} = .ok writer ∧
      run ([.beginBuild .map, .tag (.uint 1), .object [0xc0], .completeBuild .map,
        .tag (.array 1), .bin [7], .finishCompound .array] ++ [.finish]) writer =
        (.ok (), after) ∧
      Messages {} 2 text ∧ after.sink.bytes = [] ++ text := by
  have hsink : Sink.Reliable {} := .plain #[]
  have hcreate : create {} {} = .ok _ := rfl
  obtain ⟨-, hshows⟩ := Draft.Shows.create hsink hcreate
  have hdraft : Draft.run {} ([.beginBuild .map, .tag (.uint 1), .object [0xc0],
      .completeBuild .map, .tag (.array 1), .bin [7], .finishCompound .array] ++ [.finish])
      (Draft.initial {} {}) =
      (.ok (), { nesting := {}, text := [0x81, 1, 0xc0, 0x91, 0xc4, 1, 7] }) := by
    simp only [Draft.run, List.cons_append, List.nil_append]
    rfl
  obtain ⟨last, hrun, -⟩ := hshows.run_ok hdraft
  have hdecode : Header.decode (Config.tagOptions {}) [0xc0] = .ok (.nil, 1) := rfl
  have hobjects : ∀ encoded, Call.object encoded ∈ [Call.beginBuild .map, .tag (.uint 1),
      .object [0xc0], .completeBuild .map, .tag (.array 1), .bin [7], .finishCompound .array] →
      Messages (Config.tagOptions {}) 1 encoded := by
    intro encoded hmember
    simp only [List.mem_cons, reduceCtorEq, Call.object.injEq, List.not_mem_nil, or_false,
      false_or] at hmember
    rw [hmember]
    exact .scalar hdecode rfl rfl
  obtain ⟨text, hmessages, htext⟩ := messages_of_run rfl hsink hobjects hcreate hrun
  exact ⟨_, _, text, hcreate, hrun, hmessages, htext⟩

end MessagePack
