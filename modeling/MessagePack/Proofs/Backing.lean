import MessagePack.Proofs.Calls

/-!
A writer over any sink beside the same writer over a sink that never fails, whatever the sizes
of their buffers. They come to the same, and have written the same, until a call on the first
sink fails; then that sink has a front part of what the other writer has written, and keeps it.
-/

namespace MessagePack

open Attempt (Lags)

namespace Output

/-- Both have written the same, and nothing has failed since the one sink was as at the start. -/
structure Alike (start : Sink) (output other : Output) : Prop where
  calls : start.Calls none output.sink
  text : output.text = other.text
  reliable : other.sink.Reliable

/-- The one sink has failed and has a front part of what the other output has written. -/
structure Behind (start : Sink) (failure : IoFailure) (output other : Output) : Prop where
  calls : start.Calls (some failure) output.sink
  bytes : output.sink.bytes <+: other.text
  reliable : other.sink.Reliable

variable {start : Sink} {attempt : Attempt Output Unit} {bytes : Bytes}

theorem lags (hwrote : ∀ output : Output, output.Wrote bytes (attempt output)) :
    Lags (Alike start) (Behind start) attempt where
  meets := by
    intro output other halike
    obtain ⟨later, hother, hreliable, htext⟩ := (hwrote other).reliable halike.reliable
    have houtput := hwrote output
    rw [hother]
    rcases hrun : attempt output with ⟨result, after⟩
    rw [hrun] at houtput
    cases houtput with
    | all hcalls hafter =>
        refine .along ⟨halike.calls.trans hcalls, ?_, hreliable⟩
        rw [hafter, htext, halike.text]
    | part hcalls hbytes =>
        refine .behind ⟨halike.calls.trans hcalls, ?_, hreliable⟩
        rwa [htext, ← halike.text]
  keeps := by
    intro failure output other hbehind
    obtain ⟨later, hother, hreliable, htext⟩ := (hwrote other).reliable hbehind.reliable
    rw [hother]
    refine ⟨hbehind.calls, hbehind.bytes.trans ?_, hreliable⟩
    rw [htext]
    exact List.prefix_append _ _

end Output

namespace Writer
namespace State

/-- The writers differ in their outputs only. -/
def Alike (start : Sink) (state other : State) : Prop :=
  ∃ output, other = { state with output } ∧ state.output.Alike start output

def Behind (start : Sink) (failure : IoFailure) (state other : State) : Prop :=
  state.output.Behind start failure other.output

variable {start : Sink}

theorem track_lags (operation : Nesting → Except Error Nesting) :
    Lags (Alike start) (Behind start) (track operation) := by
  refine .update operation ?_ ?_ fun _ _ _ _ hbehind => hbehind
  · rintro state _ ⟨output, rfl, -⟩
    rfl
  · rintro changed state _ ⟨output, rfl, halike⟩
    exact ⟨output, rfl, halike⟩

theorem build_lags (operation : Builder → Except Error Builder) :
    Lags (Alike start) (Behind start) (build operation) := by
  refine .update operation ?_ ?_ fun _ _ _ _ hbehind => hbehind
  · rintro state _ ⟨output, rfl, -⟩
    rfl
  · rintro changed state _ ⟨output, rfl, halike⟩
    exact ⟨output, rfl, halike⟩

theorem onOutput_lags {attempt : Attempt Output Unit}
    (hlags : Lags (Output.Alike start) (Output.Behind start) attempt) :
    Lags (Alike start) (Behind start) (onOutput attempt) where
  meets := by
    rintro state _ ⟨output, rfl, halike⟩
    have hmet := hlags.meets _ _ halike
    rcases hfirst : attempt state.output with ⟨result, after⟩
    rcases hsecond : attempt output with ⟨outcome, later⟩
    rw [hfirst, hsecond] at hmet
    simp only [onOutput, Attempt.within, hfirst, hsecond]
    cases hmet with
    | along hrelated => exact .along ⟨later, rfl, hrelated⟩
    | behind hbehind => exact .behind hbehind
  keeps := fun failure state other hbehind =>
    hlags.keeps failure state.output other.output hbehind

theorem write_lags (bytes : Bytes) :
    Lags (Alike start) (Behind start) (onOutput (Output.write bytes)) :=
  onOutput_lags (Output.lags (Output.write_wrote bytes))

theorem flush_lags : Lags (Alike start) (Behind start) flush :=
  onOutput_lags (Output.lags Output.flush_wrote)

theorem emit_lags (bytes : Bytes) : Lags (Alike start) (Behind start) (emit bytes) := by
  refine .get (fun state => ?_) ?_
  · split
    · exact build_lags _
    · exact write_lags bytes
  · rintro state _ ⟨output, rfl, -⟩
    rfl

theorem tag_lags (value : Tag) : Lags (Alike start) (Behind start) (tag value) := by
  refine .get (fun state => .bind (.lift _) fun header => .bind (track_lags _) fun _ =>
    .bind (track_lags _) fun _ => .bind (build_lags _) fun _ => ?_) ?_
  · split
    · exact .bind (build_lags _) fun _ => emit_lags header
    · exact emit_lags header
  · rintro state _ ⟨output, rfl, -⟩
    rfl

theorem bytes_lags (payload : Bytes) : Lags (Alike start) (Behind start) (bytes payload) :=
  .bind (track_lags _) fun _ => emit_lags payload

theorem finishCompound_lags (kind : Compound) :
    Lags (Alike start) (Behind start) (finishCompound kind) :=
  .bind (build_lags _) fun _ => track_lags _

theorem payload_lags (header : UInt32 → Tag) (kind : Compound) (content : Bytes) :
    Lags (Alike start) (Behind start) (payload header kind content) := by
  refine .bind ?_ fun length => .bind (tag_lags _) fun _ => .bind (bytes_lags content)
    fun _ => finishCompound_lags kind
  unfold payloadLength
  split
  · exact .pure _
  · exact .throw _

theorem object_lags (encoded : Bytes) : Lags (Alike start) (Behind start) (object encoded) :=
  .bind (track_lags _) fun _ => .bind (build_lags _) fun _ => emit_lags encoded

theorem beginBuild_lags (kind : Compound) :
    Lags (Alike start) (Behind start) (beginBuild kind) := by
  refine .get (fun state => .bind (.lift _) fun _ => .bind (track_lags _) fun _ =>
    .bind (track_lags _) fun _ => build_lags _) ?_
  rintro state _ ⟨output, rfl, -⟩
  rfl

theorem writePieces_lags (pieces : List Bytes) :
    Lags (Alike start) (Behind start) (writePieces pieces) := by
  induction pieces with
  | nil => exact .pure ()
  | cons piece pieces ih => exact .bind (write_lags piece) fun _ => ih

theorem completeBuild_lags (kind : Compound) :
    Lags (Alike start) (Behind start) (completeBuild kind) := by
  refine .get (fun state => .bind (.lift _) fun _ => .bind (track_lags _) fun _ =>
    .bind (build_lags _) fun _ => .get (fun state => ?_) ?_) ?_
  · split
    · refine .get (fun state => .bind (writePieces_lags _) fun _ => build_lags _) ?_
      rintro state _ ⟨output, rfl, -⟩
      rfl
    · exact .pure ()
  · rintro state _ ⟨output, rfl, -⟩
    rfl
  · rintro state _ ⟨output, rfl, -⟩
    rfl

theorem finish_lags : Lags (Alike start) (Behind start) finish := by
  refine .get (fun state => ?_) ?_
  · dsimp only
    split
    · exact .bind (.throw _) fun _ => .bind (.lift _) fun _ => flush_lags
    · exact .bind (.lift _) fun _ => flush_lags
  · rintro state _ ⟨output, rfl, -⟩
    rfl

theorem perform_lags (call : Call) : Lags (Alike start) (Behind start) (perform call) := by
  cases call with
  | tag value => exact tag_lags value
  | bytes content => exact bytes_lags content
  | finishCompound kind => exact finishCompound_lags kind
  | str text => exact payload_lags .str .str (utf8 text)
  | bin content => exact payload_lags .bin .bin content
  | ext type content => exact payload_lags (.ext type) .ext content
  | object encoded => exact object_lags encoded
  | beginBuild kind => exact beginBuild_lags kind
  | completeBuild kind => exact completeBuild_lags kind
  | flush => exact flush_lags
  | finish => exact finish_lags

theorem run_lags (calls : List Call) : Lags (Alike start) (Behind start) (run calls) := by
  induction calls with
  | nil => exact .pure ()
  | cons call calls ih => exact .bind (perform_lags call) fun _ => ih

end State

/-- Writers are alike to begin with. -/
theorem create_alike {config : Config} {size : Nat} {sink reference : Sink} {writer other : Writer}
    (hcreate : create config sink = .ok writer)
    (hother : create { config with bufferSize := size } reference = .ok other)
    (hreliable : reference.Reliable) (hsame : reference.bytes = sink.bytes) :
    writer.error? = none ∧ other.error? = none ∧ writer.state.Alike sink other.state := by
  obtain ⟨_, -, hcreate⟩ := bind_eq_ok hcreate
  obtain ⟨_, -, hcreate⟩ := bind_eq_ok hcreate
  obtain ⟨_, -, hother⟩ := bind_eq_ok hother
  obtain ⟨_, -, hother⟩ := bind_eq_ok hother
  cases hcreate
  cases hother
  exact ⟨rfl, rfl, _, rfl, .silent, congrArg (· ++ _) hsame.symm, hreliable⟩

theorem run_eq_ok {calls : List Call} {writer after : Writer} (hnone : writer.error? = none)
    (hrun : run calls writer = (.ok (), after)) :
    State.run calls writer.state = (.ok (), after.state) := by
  obtain ⟨state, error?⟩ := writer
  obtain rfl : error? = none := hnone
  rw [run_eq] at hrun
  exact (Latch.call_eq_ok hrun).2.2

/-- Whatever the sink is, calls that succeed are calls on a draft. -/
theorem drafted {config : Config} {sink : Sink} {calls : List Call} {writer after : Writer}
    (hcreate : create config sink = .ok writer) (hrun : run calls writer = (.ok (), after)) :
    ∃ draft, Draft.run config calls (Draft.initial config sink) = (.ok (), draft) ∧
      after.depth = draft.nesting.depth ∧
      ∀ done, calls = done ++ [.finish] → after.sink.bytes = draft.text := by
  let backing : Sink := { taken := sink.taken }
  have hreliable : backing.Reliable := .plain sink.taken
  obtain ⟨other, hother⟩ : ∃ other, create config backing = .ok other := by
    obtain ⟨_, hvalid, hrest⟩ := bind_eq_ok hcreate
    obtain ⟨_, henabled, -⟩ := bind_eq_ok hrest
    rw [create, hvalid, henabled]
    exact ⟨_, rfl⟩
  obtain ⟨hnone, -, halike⟩ := create_alike hcreate hother hreliable rfl
  obtain ⟨-, hshows⟩ := Draft.Shows.create hreliable hother
  have hmet := (State.run_lags calls).meets _ _ halike
  have hfirst := run_eq_ok hnone hrun
  rcases hsecond : State.run calls other.state with ⟨result, last⟩
  rw [hfirst, hsecond] at hmet
  cases hmet with
  | along halike =>
      obtain ⟨output, rfl, hsame⟩ := halike
      obtain ⟨draft, hdraft, hafter⟩ := (Draft.Shows.run calls).run hshows hsecond
      refine ⟨draft, hdraft, congrArg Nesting.depth hafter.nesting, ?_⟩
      rintro done rfl
      rw [← hafter.text, ← hsame.text]
      exact State.bytes_of_run hfirst

end Writer
end MessagePack
