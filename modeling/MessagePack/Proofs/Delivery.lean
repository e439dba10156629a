import Mathlib
import MessagePack.Proofs.Backing
import MessagePack.Proofs.Sticky

/-!
What reaches a sink that may fail at any call. Requests are made of a writer over the sink and
of the same writer over a sink that never fails.
-/

namespace MessagePack

namespace Latch

variable {κ σ ρ α : Type} {related : σ → σ → Prop} {behind : IoFailure → σ → σ → Prop}

/-- The first component keeps up with the other, or an I/O error has stopped it. -/
inductive Trails (related : σ → σ → Prop) (behind : IoFailure → σ → σ → Prop)
    (latch other : Latch σ) : Prop
  | along (hrelated : Related related latch other)
  | behind {failure : IoFailure} (herror : latch.error? = some (.io failure))
      (hbehind : behind failure latch.state other.state)

namespace Trails

variable {latch other : Latch σ}

theorem call {attempt : Attempt σ α} (hlags : Attempt.Lags related behind attempt)
    (htrails : Trails related behind latch other) :
    Trails related behind (Latch.call attempt latch).2 (Latch.call attempt other).2 := by
  cases htrails with
  | behind herror hbehind =>
      rw [(call_guarded attempt).stuck herror]
      exact .behind herror (call_keeps (hlags.keeps _ latch.state) hbehind)
  | along hrelated =>
      obtain ⟨state, error?⟩ := latch
      obtain ⟨later, found?⟩ := other
      obtain ⟨hstate, rfl⟩ : related state later ∧ error? = found? :=
        ⟨hrelated.state, hrelated.error⟩
      cases error? with
      | some error => exact .along hrelated
      | none =>
          have hmet := hlags.meets state later hstate
          rcases hfirst : attempt state with ⟨result, after⟩
          rcases hsecond : attempt later with ⟨outcome, last⟩
          rw [hfirst, hsecond] at hmet
          simp only [Latch.call, hfirst, hsecond]
          cases hmet with
          | along hafter => cases result <;> exact .along ⟨hafter, rfl⟩
          | behind hafter => cases outcome <;> exact .behind rfl hafter

theorem fail (error : Error) (htrails : Trails related behind latch other) :
    Trails related behind (Latch.fail error latch).2 (Latch.fail error other).2 := by
  cases htrails with
  | along hrelated => exact .along (hrelated.fail error)
  | behind herror hbehind =>
      have hstuck : (Latch.fail error latch).2 = latch := by
        rw [Latch.fail, herror]
      rw [hstuck]
      refine .behind herror ?_
      rwa [fail_state]

theorem serveAll {attempt : κ → Attempt σ α}
    (hlags : ∀ call, Attempt.Lags related behind (attempt call)) (requests : List (Request κ))
    (htrails : Trails related behind latch other) :
    Trails related behind
      (Latch.serveAll (serve fun call => Latch.call (attempt call)) requests latch).2
      (Latch.serveAll (serve fun call => Latch.call (attempt call)) requests other).2 := by
  induction requests generalizing latch other with
  | nil => exact htrails
  | cons request rest ih =>
      apply ih
      cases request with
      | call call => exact htrails.call (hlags call)
      | fail error => exact htrails.fail error

end Trails

/-- Whatever is requested of related components, they stay related. -/
theorem serveAll_related {σ τ : Type} {related : σ → τ → Prop} {first : κ → Attempt σ α}
    {second : κ → Attempt τ α}
    (hagrees : ∀ call, Attempt.Agrees related (first call) (second call))
    (requests : List (Request κ)) {latch : Latch σ} {other : Latch τ}
    (hrelated : Related related latch other) :
    Related related
      (serveAll (serve fun call => Latch.call (first call)) requests latch).2
      (serveAll (serve fun call => Latch.call (second call)) requests other).2 := by
  induction requests generalizing latch other with
  | nil => exact hrelated
  | cons request rest ih =>
      apply ih
      cases request with
      | call call => exact (call_agrees (hagrees call) latch other hrelated).2
      | fail error => exact hrelated.fail error

end Latch

/-- The draft of a writer after some requests, with the error that the writer has met. -/
def Draft.after (config : Config) (requests : List (Latch.Request Writer.Call))
    (draft : Latch Draft) : Latch Draft :=
  (Latch.serveAll (Latch.serve fun call => Latch.call (Draft.perform config call)) requests
    draft).2

/-- A draft has no buffer, and of the sink it has what is there at the start. -/
theorem Draft.after_rebuffered (config : Config) (size : Nat) {sink reference : Sink}
    (hsame : reference.bytes = sink.bytes) (requests : List (Latch.Request Writer.Call)) :
    after { config with bufferSize := size } requests
        { state := initial { config with bufferSize := size } reference } =
      after config requests { state := initial config sink } := by
  have hperform : perform { config with bufferSize := size } = perform config := by
    funext call
    cases call <;> rfl
  rw [after, after, hperform, initial, initial, hsame]
  rfl

namespace Writer

/-- The writer after some requests, whatever their answers are. -/
def after (requests : List (Latch.Request Call)) (writer : Writer) : Writer :=
  (Latch.serveAll (Latch.serve perform) requests writer).2

theorem after_append (first second : List (Latch.Request Call)) (writer : Writer) :
    writer.after (first ++ second) = (writer.after first).after second :=
  Latch.serveAll_append _ first second writer

theorem after_shows {config : Config} {writer : Writer} {draft : Draft}
    (requests : List (Latch.Request Call))
    (hshows : writer.error? = none ∧ Draft.Shows config writer.state draft) :
    Latch.Related (Draft.Shows config) (writer.after requests)
      (Draft.after config requests { state := draft }) :=
  Latch.serveAll_related (Draft.Shows.perform) requests ⟨hshows.2, hshows.1⟩

theorem after_trails {config : Config} {size : Nat} {sink reference : Sink}
    {writer other : Writer} (hcreate : create config sink = .ok writer)
    (hother : create { config with bufferSize := size } reference = .ok other)
    (hreliable : reference.Reliable) (hsame : reference.bytes = sink.bytes)
    (requests : List (Latch.Request Call)) :
    Latch.Trails (State.Alike sink) (State.Behind sink)
      (writer.after requests) (other.after requests) := by
  obtain ⟨hnone, halso, halike⟩ := create_alike hcreate hother hreliable hsame
  exact Latch.Trails.serveAll State.perform_lags requests
    (.along ⟨halike, hnone.trans halso.symm⟩)

/-- A writer that has met no error has the text and the builds of the draft of its requests. -/
theorem draft_of_after {config : Config} {size : Nat} {sink reference : Sink}
    {writer other : Writer} (hcreate : create config sink = .ok writer)
    (hother : create { config with bufferSize := size } reference = .ok other)
    (hreliable : reference.Reliable) (hsame : reference.bytes = sink.bytes)
    {requests : List (Latch.Request Call)} (hnone : (writer.after requests).error? = none) :
    ∃ draft, Draft.after config requests { state := .initial config sink } = { state := draft } ∧
      (writer.after requests).buildDepth = draft.layers.length ∧
      (writer.after requests).state.output.text = draft.text ∧
      (other.after requests).state.output.text = draft.text := by
  cases after_trails hcreate hother hreliable hsame requests with
  | behind herror => cases hnone.symm.trans herror
  | along hrelated =>
      obtain ⟨output, houtput, halike⟩ := hrelated.state
      have hshows := after_shows requests (Draft.Shows.create hreliable hother)
      rw [Draft.after_rebuffered config size hsame] at hshows
      rcases hdraft : Draft.after config requests { state := .initial config sink } with
        ⟨draft, error?⟩
      rw [hdraft] at hshows
      obtain rfl : error? = none := hshows.error.symm.trans (hrelated.error.symm.trans hnone)
      have hdepth := hshows.state.builder.depth_eq
      have htext := hshows.state.text
      rw [houtput] at hdepth htext
      refine ⟨draft, rfl, hdepth, halike.text.trans htext, ?_⟩
      rw [houtput]
      exact htext

/-- Whatever is asked of a writer and however its sink behaves: at every moment the sink has a
front part of what the same requests make the writer write over a sink that never fails, with
a buffer of any size. No call on the sink follows one that fails, and none an error of any kind.
Behind a flush or a finish that succeeds outside every build the sink has the text of the draft of
these requests, and there is no more to it. -/
theorem sink_after {config : Config} {size : Nat} {sink reference : Sink}
    {writer other : Writer} (hcreate : create config sink = .ok writer)
    (hother : create { config with bufferSize := size } reference = .ok other)
    (hreliable : reference.Reliable) (hsame : reference.bytes = sink.bytes)
    (requests : List (Latch.Request Call)) :
    (∀ moment failure?, Sink.Calls moment failure? (writer.after requests).sink →
      moment.bytes <+: (other.after requests).state.output.text) ∧
    (∃ failure?, sink.Calls failure? (writer.after requests).sink ∧
      ∀ failure, failure? = some failure →
        (writer.after requests).error? = some (.io failure)) ∧
    (∀ request error (failed : Writer),
      Latch.serve perform request (writer.after requests) = (.error error, failed) →
      ∀ later, failed.after later = failed) ∧
    ∀ last result, last = Call.flush ∨ last = .finish →
      perform last (writer.after requests) = (.ok (), result) → result.buildDepth = 0 →
      ∃ draft, Draft.after config (requests ++ [.call last]) { state := .initial config sink } =
          { state := draft } ∧
        draft.layers = [] ∧ result.sink.bytes = draft.text ∧
        (other.after (requests ++ [.call last])).state.output.text = draft.text := by
  have htrails := after_trails hcreate hother hreliable hsame
  refine ⟨fun moment failure? hcalls => ?_, ?_, fun request error failed hserve later => ?_,
    fun last result hlast hperform hclosed => ?_⟩
  · refine hcalls.bytes_prefix.trans ?_
    cases htrails requests with
    | along hrelated =>
        obtain ⟨output, houtput, halike⟩ := hrelated.state
        rw [houtput, ← halike.text]
        exact List.prefix_append _ _
    | behind _ hbehind => exact hbehind.bytes
  · cases htrails requests with
    | along hrelated =>
        obtain ⟨output, -, halike⟩ := hrelated.state
        exact ⟨none, halike.calls, fun failure hnone => nomatch hnone⟩
    | @behind failure herror hbehind =>
        refine ⟨some failure, hbehind.calls, fun other hsome => ?_⟩
        cases hsome
        exact herror
  · have hsticky : Latch.Sticky perform := Latch.sticky fun call => Latch.call_guarded _
    exact (hsticky writer requests request _ failed error later hserve rfl).2.symm
  · have hresult : writer.after (requests ++ [.call last]) = result := by
      rw [after_append]
      exact congrArg Prod.snd hperform
    obtain ⟨-, hnone, hstate⟩ := Latch.call_eq_ok hperform
    have hflushed : result.state.output.sink.bytes = result.state.output.text := by
      rcases hlast with rfl | rfl
      · exact State.bytes_of_flush hstate
      · exact State.bytes_of_finish hstate
    have hkept : (writer.after (requests ++ [.call last])).error? = none := by rw [hresult, hnone]
    obtain ⟨draft, hdraft, hlayers, htext, hfaultless⟩ :=
      draft_of_after hcreate hother hreliable hsame hkept
    rw [hresult] at hlayers htext
    exact ⟨draft, hdraft, List.length_eq_zero_iff.mp (hlayers.symm.trans hclosed),
      hflushed.trans htext, hfaultless⟩

/-- An array of one text behind a buffer of four bytes: the first write on the sink takes a byte
and the second is interrupted. -/
theorem sink_after_interrupted :
    ∃ writer other : Writer,
      create { bufferSize := 4 } { replies := [.takes 1, .fails Sink.interruption] } =
        .ok writer ∧
      create { bufferSize := 1 } {} = .ok other ∧
      (perform .flush (writer.after [.call (.tag (.array 1)), .call (.str "abc")])).1 = .ok () ∧
      (perform .flush (writer.after [.call (.tag (.array 1)), .call (.str "abc")])).2.sink.bytes =
        [0x91, 0xa3, 0x61, 0x62, 0x63] ∧
      (other.after [.call (.tag (.array 1)), .call (.str "abc"), .call .flush]).state.output.text =
        [0x91, 0xa3, 0x61, 0x62, 0x63] := by
  obtain ⟨writer, hcreate, hflush, hclosed⟩ : ∃ writer : Writer,
      create { bufferSize := 4 } { replies := [.takes 1, .fails Sink.interruption] } =
        .ok writer ∧
      (perform .flush (writer.after [.call (.tag (.array 1)), .call (.str "abc")])).1 = .ok () ∧
      (perform .flush (writer.after [.call (.tag (.array 1)), .call (.str "abc")])).2.buildDepth =
        0 := ⟨_, rfl, by cbv, by cbv⟩
  obtain ⟨other, hother⟩ : ∃ other, create { bufferSize := 1 } {} = .ok other := ⟨_, rfl⟩
  obtain ⟨-, -, -, hlast⟩ := sink_after hcreate hother (.plain #[]) rfl
    [.call (.tag (.array 1)), .call (.str "abc")]
  obtain ⟨draft, hdraft, -, hbytes, hsame⟩ :=
    hlast .flush _ (.inl rfl) (Prod.ext hflush rfl) hclosed
  have htext : draft.text = [0x91, 0xa3, 0x61, 0x62, 0x63] :=
    (congrArg (fun latch => latch.state.text) hdraft).symm.trans (by cbv)
  exact ⟨writer, other, hcreate, hother, hflush, hbytes.trans htext, hsame.trans htext⟩

end Writer
end MessagePack
