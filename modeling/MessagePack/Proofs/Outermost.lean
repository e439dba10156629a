import Mathlib.Data.List.Induction
import MessagePack.Proofs.Backing
import MessagePack.Proofs.Config
import MessagePack.Proofs.Insertion

/-!
What the pages of a writer hold. While a build is open they hold the bytes emitted since the
outermost one began; when that is completed they are written with the headers inserted, and
nothing is kept.
-/

namespace MessagePack
namespace Writer

/-- The header of a tag, where it has one. -/
def written (options : TagOptions) (value : Tag) : Bytes :=
  match Header.encode options value with
  | .ok header => header
  | .error _ => []

/-- A payload behind its header. -/
def whole (options : TagOptions) (header : UInt32 → Tag) (content : Bytes) : Bytes :=
  written options (header (UInt32.ofNat content.length)) ++ content

/-- The bytes that a call emits. The header of a build is not among them. -/
def Call.emitted (options : TagOptions) : Call → Bytes
  | .tag value => written options value
  | .bytes payload => payload
  | .str text => whole options .str (utf8 text)
  | .bin content => whole options .bin content
  | .ext type content => whole options (.ext type) content
  | .object encoded => encoded
  | .finishCompound _ | .beginBuild _ | .completeBuild _ | .flush | .finish => []

namespace State

variable {α β : Type} {options : TagOptions} {chunk first second : Bytes} {state after : State}
  {kind : Compound}

/-- An attempt that begins no build and completes none, and emits these bytes if it succeeds. -/
structure Grows (options : TagOptions) (chunk : Bytes) (attempt : Attempt State α) : Prop where
  keeps : ∀ {state after : State} {value : α}, state.options = options →
    attempt state = (.ok value, after) → after.options = options
  grown : ∀ {state after : State} {value : α}, state.options = options →
    attempt state = (.ok value, after) → Builder.Grown chunk state.builder after.builder

namespace Grows

theorem bind {attempt : Attempt State α} {next : α → Attempt State β}
    (hattempt : Grows options first attempt) (hnext : ∀ value, Grows options second (next value)) :
    Grows options (first ++ second) (attempt >>= next) where
  keeps := by
    intro state after value hoptions hbind
    obtain ⟨found, middle, hfirst, hsecond⟩ := Attempt.bind_eq_ok hbind
    exact (hnext found).keeps (hattempt.keeps hoptions hfirst) hsecond
  grown := by
    intro state after value hoptions hbind
    obtain ⟨found, middle, hfirst, hsecond⟩ := Attempt.bind_eq_ok hbind
    exact (hattempt.grown hoptions hfirst).trans
      ((hnext found).grown (hattempt.keeps hoptions hfirst) hsecond)

/-- What emits nothing goes before. -/
theorem silent {attempt : Attempt State α} {next : α → Attempt State β}
    (hattempt : Grows options [] attempt) (hnext : ∀ value, Grows options chunk (next value)) :
    Grows options chunk (attempt >>= next) :=
  hattempt.bind hnext

/-- What follows a look at the state. -/
theorem get {next : State → Attempt State α}
    (hnext : ∀ state, state.options = options → Grows options chunk (next state)) :
    Grows options chunk (MonadState.get >>= next) where
  keeps := fun hoptions hget => (hnext _ hoptions).keeps hoptions hget
  grown := fun hoptions hget => (hnext _ hoptions).grown hoptions hget

theorem throw (error : Error) : Grows options chunk (throwThe Error error : Attempt State α) where
  keeps := fun _ hthrow => by cases hthrow
  grown := fun _ hthrow => by cases hthrow

theorem lift (outcome : Except Error α) :
    Grows options [] (Attempt.lift outcome : Attempt State α) where
  keeps := fun hoptions hlift => by
    obtain ⟨-, rfl⟩ := Attempt.lift_eq_ok hlift
    exact hoptions
  grown := fun _ hlift => by
    obtain ⟨-, rfl⟩ := Attempt.lift_eq_ok hlift
    exact .refl _

theorem lift_ok {value : α} {next : α → Attempt State β}
    (hnext : Grows options chunk (next value)) :
    Grows options chunk (Attempt.lift (.ok value) >>= next) :=
  hnext

theorem track (operation : Nesting → Except Error Nesting) :
    Grows options [] (State.track operation) where
  keeps := fun hoptions htrack => by
    obtain ⟨nesting, -, rfl⟩ := Attempt.update_eq_ok htrack
    exact hoptions
  grown := fun _ htrack => by
    obtain ⟨nesting, -, rfl⟩ := Attempt.update_eq_ok htrack
    exact .refl _

theorem build {operation : Builder → Except Error Builder}
    (hoperation : ∀ {builder after}, operation builder = .ok after →
      Builder.Grown chunk builder after) :
    Grows options chunk (State.build operation) where
  keeps := fun hoptions hbuild => by
    obtain ⟨builder, -, rfl⟩ := Attempt.update_eq_ok hbuild
    exact hoptions
  grown := fun _ hbuild => by
    obtain ⟨builder, hbuilder, rfl⟩ := Attempt.update_eq_ok hbuild
    exact hoperation hbuilder

theorem countValue : Grows options [] (State.build fun builder => .ok builder.countValue) :=
  build fun hcounted => by
    cases hcounted
    exact .countValue _

theorem openCounted : Grows options [] (State.build fun builder => .ok builder.openCounted) :=
  build fun hopened => by
    cases hopened
    exact .openCounted _

theorem onOutput (attempt : Attempt Output Unit) :
    Grows options [] (State.onOutput attempt) where
  keeps := fun hoptions hattempt => by
    obtain ⟨output, -, rfl⟩ := Attempt.within_eq_ok hattempt
    exact hoptions
  grown := fun _ hattempt => by
    obtain ⟨output, -, rfl⟩ := Attempt.within_eq_ok hattempt
    exact .refl _

theorem emit (chunk : Bytes) : Grows options chunk (State.emit chunk) := by
  have hemit : ∀ {state after : State} {value : Unit},
      State.emit chunk state = (.ok value, after) → after.options = state.options ∧
        Builder.Grown chunk state.builder after.builder := by
    intro state after value hemit
    rw [State.emit, Attempt.get_bind] at hemit
    by_cases hnone : state.builder.builds = []
    · rw [if_neg (by simp [Builder.isActive, hnone])] at hemit
      obtain ⟨output, -, rfl⟩ := Attempt.within_eq_ok hemit
      exact ⟨rfl, rfl, fun _ => rfl, fun hopen => absurd hnone hopen, id⟩
    · rw [if_pos (by simpa [Builder.isActive] using hnone)] at hemit
      obtain ⟨builder, happend, rfl⟩ := Attempt.update_eq_ok hemit
      exact ⟨rfl, .append hnone happend⟩
  exact ⟨fun hoptions hdone => (hemit hdone).1.trans hoptions, fun _ hdone => (hemit hdone).2⟩

theorem tag (value : Tag) : Grows options (written options value) (State.tag value) := by
  refine get fun state hoptions => ?_
  rw [hoptions]
  cases hencode : Header.encode options value with
  | error error => exact throw error
  | ok header =>
      have hwritten : written options value = header := by rw [written, hencode]
      rw [hwritten]
      apply lift_ok
      refine silent (track _) fun _ => silent (track _) fun _ => silent countValue fun _ => ?_
      split
      · exact silent openCounted fun _ => emit header
      · exact emit header

theorem bytes (payload : Bytes) : Grows options payload (State.bytes payload) :=
  .silent (track _) fun _ => emit payload

theorem finishCompound (kind : Compound) : Grows options [] (State.finishCompound kind) :=
  .silent (build .closeCounted) fun _ => track _

theorem payload (header : UInt32 → Tag) (kind : Compound) (content : Bytes) :
    Grows options (whole options header content) (State.payload header kind content) := by
  unfold State.payload State.payloadLength whole
  split
  · have hclosed : Grows options (content ++ [])
        (do State.bytes content; State.finishCompound kind) :=
      .bind (bytes content) fun _ => finishCompound kind
    rw [List.append_nil] at hclosed
    rw [pure_bind]
    exact .bind (tag _) fun _ => hclosed
  · exact throw _

theorem object (encoded : Bytes) : Grows options encoded (State.object encoded) :=
  .silent (track _) fun _ => .silent countValue fun _ => emit encoded

theorem finish : Grows options [] State.finish := by
  refine get fun state _ => ?_
  split
  · exact throw _
  · exact silent (lift _) fun _ => onOutput _

/-- Every call but the two for builds. -/
theorem perform {call : Call} (hbegin : ∀ kind, call ≠ .beginBuild kind)
    (hcomplete : ∀ kind, call ≠ .completeBuild kind) :
    Grows options (call.emitted options) (State.perform call) := by
  cases call with
  | tag value => exact tag value
  | bytes content => exact bytes content
  | finishCompound kind => exact finishCompound kind
  | str text => exact payload .str .str (utf8 text)
  | bin content => exact payload .bin .bin content
  | ext type content => exact payload (.ext type) .ext content
  | object encoded => exact object encoded
  | beginBuild kind => exact absurd rfl (hbegin kind)
  | completeBuild kind => exact absurd rfl (hcomplete kind)
  | flush => exact onOutput Output.flush
  | finish => exact finish

end Grows

theorem beginBuild_eq_ok (hbegin : beginBuild kind state = (.ok (), after)) :
    after.options = state.options ∧ after.builder = state.builder.begin kind := by
  rw [beginBuild, Attempt.get_bind] at hbegin
  obtain ⟨_, first, hlift, hrest⟩ := Attempt.bind_eq_ok hbegin
  obtain ⟨-, rfl⟩ := Attempt.lift_eq_ok hlift
  obtain ⟨_, second, helement, hrest⟩ := Attempt.bind_eq_ok hrest
  obtain ⟨counted, -, rfl⟩ := Attempt.update_eq_ok helement
  obtain ⟨_, third, henter, hrest⟩ := Attempt.bind_eq_ok hrest
  obtain ⟨nesting, -, rfl⟩ := Attempt.update_eq_ok henter
  obtain ⟨builder, hbuilder, rfl⟩ := Attempt.update_eq_ok hrest
  cases hbuilder
  exact ⟨rfl, rfl⟩

theorem writePieces_eq_ok {pieces : List Bytes}
    (hpieces : writePieces pieces state = (.ok (), after)) :
    ∃ output, after = { state with output } ∧
      output.text = state.output.text ++ pieces.flatten := by
  induction pieces generalizing state with
  | nil =>
      cases hpieces
      exact ⟨_, rfl, (List.append_nil _).symm⟩
  | cons piece pieces ih =>
      obtain ⟨_, middle, hpiece, hrest⟩ := Attempt.bind_eq_ok hpieces
      obtain ⟨output, hwrite, rfl⟩ := Attempt.within_eq_ok hpiece
      obtain ⟨last, rfl, hlast⟩ := ih hrest
      have hwrote := Output.write_wrote piece state.output
      rw [hwrite] at hwrote
      cases hwrote with
      | all _ htext =>
          refine ⟨last, rfl, ?_⟩
          rw [hlast, htext, List.flatten_cons, List.append_assoc]

theorem completeBuild_eq_ok (hcomplete : completeBuild kind state = (.ok (), after)) :
    after.options = state.options ∧ ∃ completed, state.builder.complete = .ok completed ∧
      (completed.builds ≠ [] → after.builder = completed) ∧
      (completed.builds = [] → after.builder = completed.clear ∧
        after.output.text = state.output.text ++ completed.spliced.flatten) := by
  rw [completeBuild, Attempt.get_bind] at hcomplete
  obtain ⟨_, first, hlift, hrest⟩ := Attempt.bind_eq_ok hcomplete
  obtain ⟨-, rfl⟩ := Attempt.lift_eq_ok hlift
  obtain ⟨_, second, hleave, hrest⟩ := Attempt.bind_eq_ok hrest
  obtain ⟨nesting, -, rfl⟩ := Attempt.update_eq_ok hleave
  obtain ⟨_, third, hbuild, hdrain⟩ := Attempt.bind_eq_ok hrest
  obtain ⟨completed, hcompleted, rfl⟩ := Attempt.update_eq_ok hbuild
  rw [Attempt.get_bind] at hdrain
  by_cases hnone : completed.builds = []
  · rw [if_pos (by simp [Builder.isActive, hnone]), Attempt.get_bind] at hdrain
    obtain ⟨_, fourth, hpieces, hclear⟩ := Attempt.bind_eq_ok hdrain
    obtain ⟨output, rfl, htext⟩ := writePieces_eq_ok hpieces
    obtain ⟨cleared, hcleared, rfl⟩ := Attempt.update_eq_ok hclear
    cases hcleared
    exact ⟨rfl, completed, hcompleted, fun hopen => absurd hnone hopen, fun _ => ⟨rfl, htext⟩⟩
  · rw [if_neg (by simpa [Builder.isActive] using hnone)] at hdrain
    cases hdrain
    exact ⟨rfl, completed, hcompleted, fun _ => rfl, fun hclosed => absurd hclosed hnone⟩
/-- What a call that succeeds does to the builder. -/
inductive Stepped (options : TagOptions) (state : State) : Call → State → Prop
  | grown {call : Call} {after : State}
      (hgrown : Builder.Grown (call.emitted options) state.builder after.builder) :
      Stepped options state call after
  | begun {kind : Compound} {after : State} (hbuilder : after.builder = state.builder.begin kind) :
      Stepped options state (.beginBuild kind) after
  | folded {kind : Compound} {after : State}
      (hcomplete : state.builder.complete = .ok after.builder) (hopen : after.builder.builds ≠ []) :
      Stepped options state (.completeBuild kind) after
  | drained {kind : Compound} {after : State} {completed : Builder}
      (hcomplete : state.builder.complete = .ok completed) (hnone : completed.builds = [])
      (hbuilder : after.builder = completed.clear) :
      Stepped options state (.completeBuild kind) after

theorem stepped {call : Call} (hoptions : state.options = options)
    (hperform : perform call state = (.ok (), after)) :
    after.options = options ∧ Stepped options state call after := by
  by_cases hbegin : ∃ kind, call = .beginBuild kind
  · obtain ⟨kind, rfl⟩ := hbegin
    obtain ⟨hsame, hbuilder⟩ := beginBuild_eq_ok hperform
    exact ⟨hsame.trans hoptions, .begun hbuilder⟩
  · by_cases hcomplete : ∃ kind, call = .completeBuild kind
    · obtain ⟨kind, rfl⟩ := hcomplete
      obtain ⟨hsame, completed, hcompleted, hfolded, hdrained⟩ := completeBuild_eq_ok hperform
      refine ⟨hsame.trans hoptions, ?_⟩
      by_cases hnone : completed.builds = []
      · exact .drained hcompleted hnone (hdrained hnone).1
      · obtain rfl := hfolded hnone
        exact .folded hcompleted hnone
    · have hgrows : Grows options (call.emitted options) (perform call) :=
        .perform (not_exists.mp hbegin) (not_exists.mp hcomplete)
      exact ⟨hgrows.keeps hoptions hperform, .grown (hgrows.grown hoptions hperform)⟩

theorem Stepped.orderly {call : Call} (hstepped : Stepped options state call after)
    (horderly : state.builder.Orderly) : after.builder.Orderly := by
  cases hstepped with
  | grown hgrown => exact hgrown.orderly horderly
  | begun hbuilder =>
      rw [hbuilder]
      exact (horderly.begin _).1
  | folded hcomplete => exact (horderly.complete hcomplete).1
  | drained hcomplete hnone hbuilder =>
      rw [hbuilder]
      exact (horderly.complete hcomplete).1.clear hnone

end State

variable {options : TagOptions} {writer middle after : Writer} {calls since : List Call}
  {call : Call} {kind : Compound}

/-- Behind these calls a build is open, and these are the calls since the outermost one began:
no build was open before it, and one is open behind each of them. -/
def OpenSince (writer : Writer) (calls since : List Call) : Prop :=
  ∃ before kind, calls = before ++ .beginBuild kind :: since ∧
    (run before writer).2.buildDepth = 0 ∧
    ∀ part, part <+: since → (run (before ++ .beginBuild kind :: part) writer).2.buildDepth ≠ 0

theorem OpenSince.begin (hbefore : (run calls writer).2.buildDepth = 0)
    (hafter : (run (calls ++ [.beginBuild kind]) writer).2.buildDepth ≠ 0) :
    OpenSince writer (calls ++ [.beginBuild kind]) [] := by
  refine ⟨calls, kind, rfl, hbefore, fun part hpart => ?_⟩
  rw [List.prefix_nil.mp hpart]
  exact hafter

theorem OpenSince.concat (hsince : OpenSince writer calls since)
    (hafter : (run (calls ++ [call]) writer).2.buildDepth ≠ 0) :
    OpenSince writer (calls ++ [call]) (since ++ [call]) := by
  obtain ⟨before, kind, rfl, hbefore, hopen⟩ := hsince
  have hcalls : before ++ Call.beginBuild kind :: since ++ [call] =
      before ++ .beginBuild kind :: (since ++ [call]) := by
    rw [List.append_assoc, List.cons_append]
  refine ⟨before, kind, hcalls, hbefore, fun part hpart => ?_⟩
  rcases List.prefix_concat_iff.mp hpart with rfl | hearlier
  · rw [← hcalls]
    exact hafter
  · exact hopen part hearlier

/-- What a builder holds behind some calls. -/
inductive Pending (options : TagOptions) (writer : Writer) (calls : List Call) (builder : Builder) :
    Prop
  | idle (hnone : builder.builds = []) (hpages : builder.pages = #[])
      (hslots : builder.slots = #[])
  | active {since : List Call} (hsome : builder.builds ≠ []) (hsince : OpenSince writer calls since)
      (hcontents : builder.contents = since.flatMap (Call.emitted options))

theorem buildDepth_eq_zero_iff : writer.buildDepth = 0 ↔ writer.state.builder.builds = [] :=
  List.length_eq_zero_iff

theorem Pending.step (hpending : Pending options writer calls middle.state.builder)
    (hcalls : (run calls writer).2 = middle) (hmore : (run (calls ++ [call]) writer).2 = after)
    (horderly : middle.state.builder.Orderly)
    (hstepped : State.Stepped options middle.state call after.state) :
    Pending options writer (calls ++ [call]) after.state.builder := by
  have hdepth : after.state.builder.builds ≠ [] →
      (run (calls ++ [call]) writer).2.buildDepth ≠ 0 := by
    intro hsome hzero
    rw [hmore] at hzero
    exact hsome (buildDepth_eq_zero_iff.mp hzero)
  -- an open build goes on with the call
  have hextend {since : List Call} (hsome : after.state.builder.builds ≠ [])
      (hsince : OpenSince writer calls since) (hcontents : after.state.builder.contents =
        since.flatMap (Call.emitted options) ++ call.emitted options) :
      Pending options writer (calls ++ [call]) after.state.builder := by
    refine .active hsome (hsince.concat (hdepth hsome)) ?_
    rw [hcontents, List.flatMap_append, List.flatMap_singleton]
  cases hstepped with
  | grown hgrown =>
      cases hpending with
      | idle hnone hpages hslots =>
          rw [hgrown.idle hnone]
          exact .idle hnone hpages hslots
      | active hsome hsince hcontents =>
          apply hextend (hgrown.active hsome) hsince
          rw [hgrown.contents hsome, hcontents]
  | @begun kind _ hbuilder =>
      obtain ⟨-, hlonger, hsame⟩ := horderly.begin kind
      rw [← hbuilder] at hlonger hsame
      have hsome : after.state.builder.builds ≠ [] :=
        List.ne_nil_of_length_eq_add_one hlonger
      cases hpending with
      | idle hnone hpages =>
          refine .active hsome (.begin ?_ (hdepth hsome)) ?_
          · rw [hcalls]
            exact buildDepth_eq_zero_iff.mpr hnone
          · rw [hsame, Builder.contents, hpages]
            rfl
      | active _ hsince hcontents =>
          apply hextend hsome hsince
          rw [hsame, hcontents, Call.emitted, List.append_nil]
  | @folded kind _ hcomplete hopen =>
      obtain ⟨-, hshorter, hsame⟩ := horderly.complete hcomplete
      cases hpending with
      | idle hnone => exact absurd hnone (List.ne_nil_of_length_eq_add_one hshorter)
      | active _ hsince hcontents =>
          apply hextend hopen hsince
          rw [hsame, hcontents, Call.emitted, List.append_nil]
  | drained _ hnone hbuilder =>
      rw [hbuilder]
      exact .idle hnone rfl rfl

/-- Whatever is written, as long as it succeeds: the builder is in order and holds what belongs
to the open builds. -/
theorem run_pending {config : Config} {sink : Sink} (hcreate : create config sink = .ok writer)
    (hrun : run calls writer = (.ok (), after)) :
    after.state.options = config.tagOptions ∧ after.state.builder.Orderly ∧
      Pending config.tagOptions writer calls after.state.builder := by
  induction calls using List.reverseRecOn generalizing after with
  | nil =>
      cases hrun
      obtain ⟨_, hvalid, hcreate⟩ := bind_eq_ok hcreate
      obtain ⟨_, -, hcreate⟩ := bind_eq_ok hcreate
      cases hcreate
      refine ⟨rfl, .empty ?_ rfl rfl rfl rfl, .idle rfl rfl rfl⟩
      exact (Config.valid_of_validate hvalid).sizes_pos.2.2
  | append_singleton calls call ih =>
      rw [run_append] at hrun
      obtain ⟨_, middle, hcalls, hlast⟩ := Attempt.bind_eq_ok hrun
      obtain ⟨_, last, hcall, hend⟩ := Attempt.bind_eq_ok hlast
      cases hend
      obtain ⟨-, -, hperform⟩ := Latch.call_eq_ok hcall
      obtain ⟨hoptions, horderly, hpending⟩ := ih hcalls
      obtain ⟨hsame, hstepped⟩ := State.stepped hoptions hperform
      refine ⟨hsame, hstepped.orderly horderly, ?_⟩
      apply hpending.step (congrArg Prod.snd hcalls) _ horderly hstepped
      rw [run_append, hrun]

/-- Whatever is written, as long as it succeeds, balanced or not. The builder is in order and holds
the bytes since the outermost open build began, or nothing; and what is spliced from a builder
in order, so also when the outermost build is completed, is its bytes with each header inserted at
its place, and no byte or header more or less. -/
theorem run_inserted {config : Config} {sink : Sink} (hcreate : create config sink = .ok writer)
    (hrun : run calls writer = (.ok (), after)) :
    after.state.builder.Orderly ∧ Pending config.tagOptions writer calls after.state.builder ∧
      (∀ kind last, perform (.completeBuild kind) after = (.ok (), last) → last.buildDepth = 0 →
        ∃ completed, after.state.builder.complete = .ok completed ∧ completed.Orderly ∧
          completed.builds = [] ∧ last.state.output.text = after.state.output.text ++
            Builder.inserted completed.slots.toList 0 completed.contents) ∧
      ∀ builder : Builder, builder.Orderly →
        builder.spliced.flatten = Builder.inserted builder.slots.toList 0 builder.contents ∧
        builder.spliced.flatten.length =
          builder.length + (builder.slots.toList.flatMap Slot.header).length := by
  obtain ⟨-, horderly, hpending⟩ := run_pending hcreate hrun
  refine ⟨horderly, hpending, fun kind last hlast hzero => ?_, fun builder hbuilder => ?_⟩
  · obtain ⟨-, -, hcomplete⟩ := Latch.call_eq_ok hlast
    obtain ⟨-, completed, hcompleted, hfolded, hdrained⟩ := State.completeBuild_eq_ok hcomplete
    have hfull := (horderly.complete hcompleted).1
    have hnone : completed.builds = [] := by
      refine Decidable.byContradiction fun hsome => hsome ?_
      rw [← hfolded hsome]
      exact buildDepth_eq_zero_iff.mp hzero
    refine ⟨completed, hcompleted, hfull, hnone, ?_⟩
    rw [(hdrained hnone).2, hfull.spliced]
  · refine ⟨hbuilder.spliced, ?_⟩
    rw [Builder.flatten_spliced, Builder.length_weave, hbuilder.length]

/-- An array in an array, completed, and a bin that goes on in a second page. -/
theorem run_inserted_pieces :
    ∃ writer after last, create { builderPageSize := 2 } {} = .ok writer ∧
      run [.tag .nil, .beginBuild .array, .beginBuild .array, .completeBuild .array, .bin [7]]
        writer = (.ok (), after) ∧
      perform (.completeBuild .array) after = (.ok (), last) ∧
      after.state.builder.pages = #[#[0xc4, 0x01], #[0x07]] ∧
      after.state.builder.offsets = [0, 0] ∧ after.state.builder.Orderly ∧
      last.state.output.text = [0xc0, 0x92, 0x90, 0xc4, 0x01, 0x07] := by
  obtain ⟨calls, hcalls⟩ : ∃ calls : List Call, calls = [.tag .nil, .beginBuild .array,
    .beginBuild .array, .completeBuild .array, .bin [7]] := ⟨_, rfl⟩
  obtain ⟨writer, hcreate⟩ : ∃ writer, create { builderPageSize := 2 } {} = .ok writer :=
    ⟨_, rfl⟩
  have hall : (run calls writer).1 = .ok () ∧
      (perform (.completeBuild .array) (run calls writer).2).1 = .ok () ∧
      (perform (.completeBuild .array) (run calls writer).2).2.buildDepth = 0 ∧
      (run calls writer).2.state.builder.pages = #[#[0xc4, 0x01], #[0x07]] ∧
      (run calls writer).2.state.builder.offsets = [0, 0] ∧
      (run calls writer).2.state.output.text = [0xc0] ∧
      (run calls writer).2.state.builder.complete.map (fun completed =>
        Builder.inserted completed.slots.toList 0 completed.contents) =
          .ok [0x92, 0x90, 0xc4, 0x01, 0x07] := by
    cases hcreate
    rw [hcalls]
    decide +kernel
  rw [← hcalls]
  rcases hrun : run calls writer with ⟨result, after⟩
  rw [hrun] at hall
  rcases hlast : perform (.completeBuild .array) after with ⟨answer, last⟩
  obtain ⟨rfl, hanswer, hzero, hpages, hoffsets, htext, hinserted⟩ := hall
  rw [hlast] at hanswer hzero
  obtain rfl : answer = .ok () := hanswer
  obtain ⟨horderly, -, hdrain, -⟩ := run_inserted hcreate hrun
  obtain ⟨completed, hcompleted, -, -, houtput⟩ := hdrain .array last hlast hzero
  rw [hcompleted] at hinserted
  have hspliced : Builder.inserted completed.slots.toList 0 completed.contents =
      [0x92, 0x90, 0xc4, 0x01, 0x07] := Except.ok.inj hinserted
  rw [htext, hspliced] at houtput
  exact ⟨writer, after, last, hcreate, hrun, hlast, hpages, hoffsets, horderly, houtput⟩

end Writer
end MessagePack
