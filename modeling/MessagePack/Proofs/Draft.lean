import MessagePack.Proofs.Output
import MessagePack.Proofs.Splice
import MessagePack.Writer

/-!
What a writer writes, apart from its buffers. A draft keeps the text written outside every
build and one text for each open build; pages, slots and the sink are out of sight. Over a sink
that never fails, every call comes to the same on a writer and on its draft.
-/

namespace MessagePack

structure Draft where
  nesting : Nesting
  layers : List Layer := []
  text : Bytes := []

namespace Draft

def track (operation : Nesting → Except Error Nesting) : Attempt Draft Unit :=
  .update Draft.nesting (fun nesting draft => { draft with nesting }) operation

def append (bytes : Bytes) (draft : Draft) : Draft :=
  match draft.layers with
  | [] => { draft with text := draft.text ++ bytes }
  | top :: outer => { draft with layers := { top with text := top.text ++ bytes } :: outer }

@[simp] theorem nesting_append (bytes : Bytes) (draft : Draft) :
    (draft.append bytes).nesting = draft.nesting := by
  unfold append
  split <;> rfl

def countValue (draft : Draft) : Draft :=
  { draft with layers := Layer.countValue draft.layers }

def openCounted (draft : Draft) : Draft :=
  { draft with layers := Layer.openCounted draft.layers }

def closeCounted : Attempt Draft Unit := fun draft =>
  match draft.layers with
  | [] => (.ok (), draft)
  | top :: outer =>
      if top.nested = 0 then
        (.error (.usage .buildOutOfOrder), draft)
      else
        (.ok (), { draft with layers := { top with nested := top.nested - 1 } :: outer })

section Calls

variable (config : Config)

/-- Only an open build has pages, and only bytes need one. -/
def emit (bytes : Bytes) : Attempt Draft Unit := fun draft =>
  if draft.layers ≠ [] ∧ bytes ≠ [] ∧ Builder.maxPage < config.builderPageSize then
    (.error (.resource config.builderPageSize), draft)
  else
    (.ok (), draft.append bytes)

def tag (tag : Tag) : Attempt Draft Unit := do
  let header ← Attempt.lift (Header.encode config.tagOptions tag)
  track Nesting.element
  track (Nesting.enterTag tag)
  modify countValue
  if tag.isCompound then
    modify openCounted
  emit config header

def bytes (payload : Bytes) : Attempt Draft Unit := do
  track (Nesting.bytes payload.length)
  emit config payload

def finishCompound (kind : Compound) : Attempt Draft Unit := do
  closeCounted
  track (Nesting.leave kind)

def payload (header : UInt32 → Tag) (kind : Compound) (content : Bytes) :
    Attempt Draft Unit :=
  if content.length < UInt32.size then do
    tag config (header (UInt32.ofNat content.length))
    bytes config content
    finishCompound kind
  else
    throw (.tooBig content.length (UInt32.size - 1))

def object (encoded : Bytes) : Attempt Draft Unit := do
  track Nesting.element
  modify countValue
  emit config encoded

def begin (kind : Compound) (draft : Draft) : Draft :=
  { draft.countValue with layers := { kind } :: draft.countValue.layers }

def beginBuild (kind : Compound) : Attempt Draft Unit := do
  Attempt.lift (requireFeature config.builder .builder)
  track Nesting.element
  track (Nesting.enterOpenEnded kind)
  modify (begin kind)

def checkComplete (kind : Compound) (draft : Draft) : Except Error Unit := do
  requireFeature config.builder .builder
  match draft.layers with
  | [] => throw (.usage .buildOutOfOrder)
  | top :: _ =>
      if top.kind ≠ kind then
        throw (.usage .buildOutOfOrder)
      else if top.nested ≠ 0 then
        throw (.usage (.unclosedCompounds top.nested))
      else if kind = .map ∧ top.count % 2 ≠ 0 then
        throw (.usage .danglingMapKey)

/-- The innermost build, its header first, becomes a part of what is around it. -/
def fold : Attempt Draft Unit := fun draft =>
  match draft.layers with
  | [] => (.error (.usage .buildOutOfOrder), draft)
  | top :: outer =>
      match Builder.header config.tagOptions top.kind top.count with
      | .error error => (.error error, draft)
      | .ok header => (.ok (), { draft with layers := outer }.append (header ++ top.text))

def completeBuild (kind : Compound) : Attempt Draft Unit := do
  Attempt.lift (checkComplete config kind (← get))
  track (Nesting.leave kind)
  fold config

def flush : Attempt Draft Unit :=
  pure ()

def finish : Attempt Draft Unit := do
  let draft ← get
  if draft.layers ≠ [] then
    throw (.usage (.pendingBuild draft.layers.length))
  Attempt.lift draft.nesting.checkClosed
  flush

def perform : Writer.Call → Attempt Draft Unit
  | .tag value => tag config value
  | .bytes payload => bytes config payload
  | .finishCompound kind => finishCompound kind
  | .str text => payload config .str .str (utf8 text)
  | .bin content => payload config .bin .bin content
  | .ext type content => payload config (.ext type) .ext content
  | .object encoded => object config encoded
  | .beginBuild kind => beginBuild config kind
  | .completeBuild kind => completeBuild config kind
  | .flush => flush
  | .finish => finish

end Calls

end Draft

/-- A builder and the layers it holds. -/
structure Builder.Shows (config : Config) (builder : Builder) (layers : List Layer) : Prop where
  enabled : builder.enabled = config.builder
  options : builder.options = config.tagOptions
  pageSize : builder.pageSize = config.builderPageSize
  pages : maxPage < config.builderPageSize → builder.pages = #[]
  length : builder.length = builder.contents.length
  holds : Holds builder.builds builder.contents builder.slots.toList layers

/-- A writer over a reliable sink and what it has been given to write. -/
structure Draft.Shows (config : Config) (state : Writer.State) (draft : Draft) : Prop where
  options : state.options = config.tagOptions
  nesting : state.nesting = draft.nesting
  text : state.output.text = draft.text
  reliable : state.output.sink.Reliable
  builder : state.builder.Shows config draft.layers

namespace Builder.Shows

variable {config : Config} {builder : Builder} {layer : Layer} {layers : List Layer}

theorem isActive_iff (hshows : builder.Shows config layers) :
    builder.isActive = true ↔ layers ≠ [] := by
  rw [isActive, ne_eq, ← hshows.holds.nil_iff]
  simp

theorem depth_eq (hshows : builder.Shows config layers) : builder.depth = layers.length :=
  hshows.holds.length_eq

theorem top (hshows : builder.Shows config (layer :: layers)) :
    ∃ slot builds, builder.builds =
      { kind := layer.kind, count := layer.count, nested := layer.nested, slot } :: builds := by
  have hholds := hshows.holds
  generalize builder.builds = builds, builder.contents = bytes,
    builder.slots.toList = slots at hholds ⊢
  cases hholds with
  | layer _ _ => exact ⟨_, _, rfl⟩

theorem none (hshows : builder.Shows config []) : builder.builds = [] :=
  hshows.holds.nil_iff.mpr rfl

theorem recount (count nested : Nat) {top : Build} {outer : List Build}
    (hbuilds : builder.builds = top :: outer)
    (hshows : builder.Shows config (layer :: layers)) :
    Shows config { builder with builds := { top with count, nested } :: outer }
      ({ layer with count, nested } :: layers) := by
  have hholds := hshows.holds
  rw [hbuilds] at hholds
  exact { hshows with holds := hholds.recount count nested }

theorem countValue (hshows : builder.Shows config layers) :
    builder.countValue.Shows config (Layer.countValue layers) := by
  cases layers with
  | nil =>
      rw [Builder.countValue, hshows.none]
      exact hshows
  | cons layer layers =>
      obtain ⟨slot, builds, hbuilds⟩ := hshows.top
      rw [Builder.countValue, hbuilds, Layer.countValue]
      by_cases hzero : layer.nested = 0
      · simp only [hzero, if_true]
        rw [← hzero]
        exact hshows.recount (layer.count + 1) layer.nested hbuilds
      · simp only [hzero, if_false]
        exact hshows

theorem openCounted (hshows : builder.Shows config layers) :
    builder.openCounted.Shows config (Layer.openCounted layers) := by
  cases layers with
  | nil =>
      rw [Builder.openCounted, hshows.none]
      exact hshows
  | cons layer layers =>
      obtain ⟨slot, builds, hbuilds⟩ := hshows.top
      rw [Builder.openCounted, hbuilds, Layer.openCounted]
      exact hshows.recount layer.count (layer.nested + 1) hbuilds

theorem append (hshows : builder.Shows config (layer :: layers)) {pages : Array (Array UInt8)}
    {bytes : Bytes} (hsize : builder.pageSize ≤ maxPage)
    (hpages : (pages.toList.map Array.toList).flatten = builder.contents ++ bytes) :
    Shows config { builder with pages, length := builder.length + bytes.length }
      ({ layer with text := layer.text ++ bytes } :: layers) where
  enabled := hshows.enabled
  options := hshows.options
  pageSize := hshows.pageSize
  pages := fun hlarge => by
    rw [hshows.pageSize] at hsize
    omega
  length := by
    rw [contents, hpages, List.length_append, ← hshows.length]
  holds := by
    rw [contents, hpages]
    exact hshows.holds.append bytes

theorem begin (kind : Compound) (hshows : builder.Shows config layers) :
    (builder.begin kind).Shows config ({ kind } :: Layer.countValue layers) := by
  have hcounted := hshows.countValue
  have hbegun := hcounted.holds.begin kind
  simp only [Array.length_toList] at hbegun
  exact { hcounted with
    holds := by
      rw [Builder.begin, Array.toList_push]
      simp only [hcounted.length]
      exact hbegun }

theorem checkComplete (kind : Compound) {draft : Draft}
    (hshows : builder.Shows config draft.layers) :
    builder.checkComplete kind = Draft.checkComplete config kind draft := by
  obtain ⟨nesting, layers, text⟩ := draft
  cases layers with
  | nil => simp [Builder.checkComplete, checkEnabled, Draft.checkComplete, hshows.none,
      hshows.enabled]
  | cons layer layers =>
      obtain ⟨slot, builds, hbuilds⟩ := hshows.top
      simp [Builder.checkComplete, checkEnabled, Draft.checkComplete, hbuilds, hshows.enabled]

theorem complete_error {error : Error} (hshows : builder.Shows config (layer :: layers))
    (hheader : header config.tagOptions layer.kind layer.count = .error error) :
    builder.complete = .error error := by
  obtain ⟨slot, builds, hbuilds⟩ := hshows.top
  simp [Builder.complete, hbuilds, hshows.options, hheader]

theorem complete_ok {bytes : Bytes} (hshows : builder.Shows config (layer :: layers))
    (hheader : header config.tagOptions layer.kind layer.count = .ok bytes) :
    ∃ builds slots, builder.complete = .ok { builder with builds, slots } ∧
      match layers with
      | [] => builds = [] ∧ weave 0 builder.contents slots.toList = bytes ++ layer.text
      | outer :: layers => Holds builds builder.contents slots.toList
          ({ outer with text := outer.text ++ bytes ++ layer.text } :: layers) := by
  obtain ⟨slot, builds, hbuilds⟩ := hshows.top
  have hholds := hshows.holds
  rw [hbuilds] at hholds
  refine ⟨builds, builder.slots.modify slot fun slot => { slot with header := bytes }, ?_, ?_⟩
  · simp [Builder.complete, hbuilds, hshows.options, hheader]
  · rw [Array.toList_modify]
    cases layers with
    | nil =>
        obtain rfl : builds = [] := by simpa using hholds.length_eq
        exact ⟨rfl, hholds.complete_outermost bytes⟩
    | cons outer layers => exact hholds.complete bytes

end Builder.Shows

namespace Draft.Shows

variable {config : Config}

theorem track (operation : Nesting → Except Error Nesting) :
    Attempt.Agrees (Shows config) (Writer.State.track operation) (Draft.track operation) := by
  apply Attempt.Agrees.update operation
  · exact fun _ _ hshows => hshows.nesting
  · exact fun _ _ _ hshows => { hshows with nesting := rfl }

/-- A change of the builder is a change of the layers. -/
def Follows (config : Config) (operation : Builder → Except Error Builder)
    (attempt : Attempt Draft Unit) (builder : Builder) (draft : Draft) : Prop :=
  (∃ error, operation builder = .error error ∧ attempt draft = (.error error, draft)) ∨
    ∃ changed layers, operation builder = .ok changed ∧
      attempt draft = (.ok (), { draft with layers }) ∧ changed.Shows config layers

private theorem build_ok {operation : Builder → Except Error Builder} {state : Writer.State}
    {builder : Builder} (hoperation : operation state.builder = .ok builder) :
    Writer.State.build operation state = (.ok (), { state with builder }) :=
  Attempt.update_of_ok hoperation

private theorem build_error {operation : Builder → Except Error Builder}
    {state : Writer.State} {error : Error}
    (hoperation : operation state.builder = .error error) :
    Writer.State.build operation state = (.error error, state) :=
  Attempt.update_of_error hoperation

theorem build_of_follows {operation : Builder → Except Error Builder}
    {attempt : Attempt Draft Unit} {state : Writer.State} {draft : Draft}
    (hshows : Shows config state draft)
    (hfollows : Follows config operation attempt state.builder draft) :
    (Writer.State.build operation state).1 = (attempt draft).1 ∧
      Shows config (Writer.State.build operation state).2 (attempt draft).2 := by
  rcases hfollows with
    ⟨error, hoperation, hattempt⟩ | ⟨changed, layers, hoperation, hattempt, hchanged⟩
  · rw [build_error hoperation, hattempt]
    exact ⟨rfl, hshows⟩
  · rw [build_ok hoperation, hattempt]
    exact ⟨rfl, { hshows with builder := hchanged }⟩

theorem build {operation : Builder → Except Error Builder} {attempt : Attempt Draft Unit}
    (hfollows : ∀ (builder : Builder) (draft : Draft), builder.Shows config draft.layers →
      Follows config operation attempt builder draft) :
    Attempt.Agrees (Shows config) (Writer.State.build operation) attempt :=
  fun state draft hshows =>
    build_of_follows hshows (hfollows state.builder draft hshows.builder)

theorem change {change : Builder → Builder} {alter : Draft → List Layer}
    (hchange : ∀ (builder : Builder) (draft : Draft), builder.Shows config draft.layers →
      (change builder).Shows config (alter draft)) :
    Attempt.Agrees (Shows config) (Writer.State.build fun builder => .ok (change builder))
      (modify fun draft => { draft with layers := alter draft }) :=
  build fun builder draft hshows => .inr ⟨_, _, rfl, rfl, hchange builder draft hshows⟩

theorem countValue :
    Attempt.Agrees (Shows config) (Writer.State.build fun builder => .ok builder.countValue)
      (modify Draft.countValue) :=
  change fun _ _ hshows => hshows.countValue

theorem openCounted :
    Attempt.Agrees (Shows config) (Writer.State.build fun builder => .ok builder.openCounted)
      (modify Draft.openCounted) :=
  change fun _ _ hshows => hshows.openCounted

theorem closeCounted :
    Attempt.Agrees (Shows config) (Writer.State.build Builder.closeCounted)
      Draft.closeCounted := by
  refine build fun builder draft hshows => ?_
  obtain ⟨nesting, layers, text⟩ := draft
  cases layers with
  | nil =>
      exact .inr ⟨builder, [], by simp [Builder.closeCounted, hshows.none], rfl, hshows⟩
  | cons layer layers =>
      obtain ⟨slot, builds, hbuilds⟩ := hshows.top
      by_cases hzero : layer.nested = 0
      · exact .inl ⟨.usage .buildOutOfOrder, by simp [Builder.closeCounted, hbuilds, hzero],
          by simp [Draft.closeCounted, hzero]⟩
      · exact .inr ⟨_, _, by simp [Builder.closeCounted, hbuilds, hzero],
          by simp [Draft.closeCounted, hzero],
          hshows.recount layer.count (layer.nested - 1) hbuilds⟩

private theorem emit_follows (bytes : Bytes) {builder : Builder} {draft : Draft}
    (hlayers : draft.layers ≠ []) (hshows : builder.Shows config draft.layers) :
    Follows config (Builder.append bytes) (Draft.emit config bytes) builder draft := by
  obtain ⟨nesting, layers, text⟩ := draft
  cases layers with
  | nil => exact absurd rfl hlayers
  | cons layer layers =>
      by_cases hlarge : Builder.maxPage < config.builderPageSize
      · by_cases hbytes : bytes = []
        · subst hbytes
          exact .inr ⟨builder, layer :: layers, rfl, by simp [Draft.emit, Draft.append], hshows⟩
        · refine .inl ⟨_, Builder.append_of_large (by rw [hshows.pageSize]; exact hlarge)
            (hshows.pages hlarge) hbytes, ?_⟩
          simp [Draft.emit, hbytes, hlarge, hshows.pageSize]
      · have hsize : builder.pageSize ≤ Builder.maxPage := by
          rw [hshows.pageSize]
          omega
        obtain ⟨pages, happend, hpages⟩ := Builder.append_ok bytes builder hsize
        exact .inr ⟨_, _, happend, by simp [Draft.emit, Draft.append, hlarge],
          hshows.append hsize hpages⟩

private theorem write_output (bytes : Bytes) {state : Writer.State}
    (hreliable : state.output.sink.Reliable) :
    ∃ output, Writer.State.onOutput (Output.write bytes) state =
        (.ok (), { state with output }) ∧
      output.sink.Reliable ∧ output.text = state.output.text ++ bytes := by
  obtain ⟨output, hwrite, hafter, htext⟩ := Output.write_reliable hreliable bytes
  refine ⟨output, ?_, hafter, htext⟩
  simp only [Writer.State.onOutput, Attempt.within, hwrite]

private theorem writePieces_output (pieces : List Bytes) (state : Writer.State)
    (hreliable : state.output.sink.Reliable) :
    ∃ output, Writer.State.writePieces pieces state = (.ok (), { state with output }) ∧
      output.sink.Reliable ∧ output.text = state.output.text ++ pieces.flatten := by
  induction pieces generalizing state with
  | nil => exact ⟨state.output, rfl, hreliable, by simp⟩
  | cons piece pieces ih =>
      obtain ⟨middle, hwrite, hmiddle, htext⟩ := write_output piece hreliable
      obtain ⟨output, hpieces, hafter, hall⟩ := ih { state with output := middle } hmiddle
      refine ⟨output, ?_, hafter, ?_⟩
      · rw [Writer.State.writePieces, Attempt.bind_of_ok hwrite, hpieces]
      · rw [hall, htext, List.flatten_cons, List.append_assoc]

theorem emit (bytes : Bytes) :
    Attempt.Agrees (Shows config) (Writer.State.emit bytes) (Draft.emit config bytes) := by
  intro state draft hshows
  rw [Writer.State.emit, Attempt.get_bind]
  by_cases hlayers : draft.layers = []
  · rw [if_neg (by rw [hshows.builder.isActive_iff, hlayers]; simp)]
    obtain ⟨output, hwrite, hreliable, htext⟩ := write_output bytes hshows.reliable
    rw [hwrite]
    simp only [Draft.emit, Draft.append, hlayers, ne_eq, not_true_eq_false, false_and,
      if_false, true_and]
    exact { hshows with
      text := by rw [htext, hshows.text]
      reliable := hreliable
      builder := by rw [← hlayers]; exact hshows.builder }
  · rw [if_pos (by rw [hshows.builder.isActive_iff]; exact hlayers)]
    exact build_of_follows hshows (emit_follows bytes hlayers hshows.builder)

theorem tag (tag : Tag) :
    Attempt.Agrees (Shows config) (Writer.State.tag tag) (Draft.tag config tag) := by
  refine .get fun state draft hshows => ?_
  rw [hshows.options]
  refine .bind (.lift _) fun header => .bind (track _) fun _ => .bind (track _) fun _ =>
    .bind countValue fun _ => ?_
  split
  · exact .bind openCounted fun _ => emit header
  · exact emit header

theorem bytes (payload : Bytes) :
    Attempt.Agrees (Shows config) (Writer.State.bytes payload) (Draft.bytes config payload) :=
  .bind (track _) fun _ => emit payload

theorem finishCompound (kind : Compound) :
    Attempt.Agrees (Shows config) (Writer.State.finishCompound kind)
      (Draft.finishCompound kind) :=
  .bind closeCounted fun _ => track _

theorem payload (header : UInt32 → Tag) (kind : Compound) (content : Bytes) :
    Attempt.Agrees (Shows config) (Writer.State.payload header kind content)
      (Draft.payload config header kind content) := by
  unfold Writer.State.payload Writer.State.payloadLength Draft.payload
  split
  · exact .bind (tag _) fun _ => .bind (bytes content) fun _ => finishCompound kind
  · exact .throw _

theorem object (encoded : Bytes) :
    Attempt.Agrees (Shows config) (Writer.State.object encoded)
      (Draft.object config encoded) :=
  .bind (track _) fun _ => .bind countValue fun _ => emit encoded

theorem beginBuild (kind : Compound) :
    Attempt.Agrees (Shows config) (Writer.State.beginBuild kind)
      (Draft.beginBuild config kind) := by
  refine .get fun state draft hshows => ?_
  rw [Builder.checkEnabled, hshows.builder.enabled]
  exact .bind (.lift _) fun _ => .bind (track _) fun _ => .bind (track _) fun _ =>
    build fun builder draft hshows => .inr ⟨_, _, rfl, rfl, hshows.begin kind⟩

/-- What is left to do when a build is complete: the last one empties the pages. -/
private def drain : Attempt Writer.State Unit := do
  if !(← get).builder.isActive then
    Writer.State.writePieces (← get).builder.spliced
    Writer.State.build fun builder => .ok builder.clear

private theorem drain_active {state : Writer.State} (hactive : state.builder.isActive = true) :
    drain state = (.ok (), state) := by
  rw [drain, Attempt.get_bind, hactive]
  rfl

private theorem drain_last (state : Writer.State) (hreliable : state.output.sink.Reliable)
    (hbuilds : state.builder.builds = []) :
    ∃ output, drain state = (.ok (), { state with output, builder := state.builder.clear }) ∧
      output.sink.Reliable ∧
      output.text = state.output.text ++ state.builder.spliced.flatten := by
  obtain ⟨output, hpieces, hafter, htext⟩ :=
    writePieces_output state.builder.spliced state hreliable
  refine ⟨output, ?_, hafter, htext⟩
  rw [drain, Attempt.get_bind, Builder.isActive, hbuilds]
  simp only [List.isEmpty_nil, Bool.not_true, Bool.not_false, if_true]
  rw [Attempt.get_bind, Attempt.bind_of_ok hpieces]
  rfl

private theorem fold :
    Attempt.Agrees (Shows config) (do Writer.State.build Builder.complete; drain)
      (Draft.fold config) := by
  intro state draft hshows
  obtain ⟨nesting, layers, text⟩ := draft
  have hbuilder := hshows.builder
  cases layers with
  | nil =>
      have hcomplete : state.builder.complete = .error (.usage .buildOutOfOrder) := by
        rw [Builder.complete, hbuilder.none]
      rw [Attempt.bind_of_error (build_error hcomplete)]
      exact ⟨rfl, hshows⟩
  | cons layer layers =>
      cases hheader : Builder.header config.tagOptions layer.kind layer.count with
      | error error =>
          rw [Attempt.bind_of_error (build_error (hbuilder.complete_error hheader))]
          simp only [Draft.fold, hheader, true_and]
          exact hshows
      | ok header =>
          obtain ⟨builds, slots, hcomplete, hheld⟩ := hbuilder.complete_ok hheader
          rw [Attempt.bind_of_ok (build_ok hcomplete)]
          simp only [Draft.fold, hheader]
          cases layers with
          | nil =>
              obtain ⟨rfl, hweave⟩ := hheld
              obtain ⟨output, hdrain, hafter, htext⟩ := drain_last
                { state with builder := { state.builder with builds := [], slots } }
                hshows.reliable rfl
              rw [hdrain]
              refine ⟨rfl, hshows.options, hshows.nesting, ?_, hafter, hbuilder.enabled,
                hbuilder.options, hbuilder.pageSize, fun _ => rfl, rfl, .none⟩
              rw [htext, Builder.flatten_spliced]
              simp only [Draft.append]
              rw [← hweave]
              exact congrArg (· ++ _) hshows.text
          | cons outer layers =>
              have hholds : Builder.Shows config { state.builder with builds, slots }
                  ({ outer with text := outer.text ++ header ++ layer.text } :: layers) :=
                { hbuilder with holds := hheld }
              rw [drain_active (by rw [hholds.isActive_iff]; simp)]
              refine ⟨rfl, { hshows with builder := ?_ }⟩
              simpa only [Draft.append, List.append_assoc] using hholds

theorem completeBuild (kind : Compound) :
    Attempt.Agrees (Shows config) (Writer.State.completeBuild kind)
      (Draft.completeBuild config kind) := by
  refine .get fun state draft hshows => ?_
  rw [hshows.builder.checkComplete kind]
  exact .bind (.lift _) fun _ => .bind (track _) fun _ => fold

theorem flush : Attempt.Agrees (Shows config) Writer.State.flush Draft.flush := by
  intro state draft hshows
  obtain ⟨output, hflush, hreliable, htext⟩ := Output.flush_reliable hshows.reliable
  simp only [Writer.State.flush, Writer.State.onOutput, Attempt.within, hflush]
  exact ⟨rfl, { hshows with text := htext.trans hshows.text, reliable := hreliable }⟩

theorem finish : Attempt.Agrees (Shows config) Writer.State.finish Draft.finish := by
  refine .get fun state draft hshows => ?_
  have hend : Attempt.Agrees (Shows config)
      (do Attempt.lift draft.nesting.checkClosed; Writer.State.flush)
      (do Attempt.lift draft.nesting.checkClosed; Draft.flush) :=
    .bind (.lift _) fun _ => flush
  rw [hshows.nesting, hshows.builder.depth_eq]
  by_cases hlayers : draft.layers = []
  · rw [if_neg (by rw [hshows.builder.isActive_iff, hlayers]; simp),
      if_neg (by simp [hlayers])]
    exact hend
  · rw [if_pos (by rw [hshows.builder.isActive_iff]; exact hlayers), if_pos hlayers]
    exact .bind (.throw _) fun _ => hend

/-- Every call comes to the same on a writer over a reliable sink and on its draft. -/
theorem perform (call : Writer.Call) :
    Attempt.Agrees (Shows config) (Writer.State.perform call) (Draft.perform config call) := by
  cases call with
  | tag value => exact tag value
  | bytes content => exact bytes content
  | finishCompound kind => exact finishCompound kind
  | str text => exact payload .str .str (utf8 text)
  | bin content => exact payload .bin .bin content
  | ext type content => exact payload (.ext type) .ext content
  | object encoded => exact object encoded
  | beginBuild kind => exact beginBuild kind
  | completeBuild kind => exact completeBuild kind
  | flush => exact flush
  | finish => exact finish

end Draft.Shows
end MessagePack
