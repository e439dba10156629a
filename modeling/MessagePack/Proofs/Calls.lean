import MessagePack.Proofs.Draft

/-!
Calls one after the other. What they and a final finish leave in a reliable sink is the text of
a draft.
-/

namespace MessagePack
namespace Writer

/-- Calls up to the first that fails. -/
def run : List Call → Attempt Writer Unit
  | [] => pure ()
  | call :: calls => do
      perform call
      run calls

/-- The bytes in a sink after some calls and a final finish. -/
def encodeCalls (config : Config) (sink : Sink) (calls : List Call) : Except Error Bytes := do
  let writer ← create config sink
  let (result, after) := run (calls ++ [.finish]) writer
  result
  return after.sink.bytes

theorem run_append (first second : List Call) :
    run (first ++ second) = (do run first; run second) := by
  induction first with
  | nil => simp [run]
  | cons call calls ih => simp [run, ih, bind_assoc]

def State.run : List Call → Attempt State Unit
  | [] => pure ()
  | call :: calls => do
      State.perform call
      State.run calls

theorem State.run_append (first second : List Call) :
    State.run (first ++ second) = (do State.run first; State.run second) := by
  induction first with
  | nil => simp [State.run]
  | cons call calls ih => simp [State.run, ih, bind_assoc]

end Writer

theorem Writer.run_eq (calls : List Call) (state : State) :
    run calls { state } = Latch.call (State.run calls) { state } := by
  induction calls generalizing state with
  | nil => rfl
  | cons call calls ih =>
      rw [run, State.run, Latch.call_bind, perform]
      rcases hperform : State.perform call state with ⟨outcome, after⟩
      cases outcome with
      | ok value =>
          rw [Attempt.bind_of_ok (Latch.call_of_ok hperform),
            Attempt.bind_of_ok (Latch.call_of_ok hperform), ih]
      | error error =>
          rw [Attempt.bind_of_error (Latch.call_of_error hperform),
            Attempt.bind_of_error (Latch.call_of_error hperform)]

/-! Whatever the sink is, nothing waits behind a flush. -/

namespace Writer.State

variable {state after : State}

theorem bytes_of_flush (hflush : flush state = (.ok (), after)) :
    after.output.sink.bytes = after.output.text := by
  rw [flush] at hflush
  obtain ⟨output, houtput, rfl⟩ := Attempt.within_eq_ok hflush
  exact Output.flush_bytes houtput

theorem bytes_of_finish (hfinish : finish state = (.ok (), after)) :
    after.output.sink.bytes = after.output.text := by
  rw [finish, Attempt.get_bind] at hfinish
  cases hactive : state.builder.isActive with
  | true => rw [hactive] at hfinish; cases hfinish
  | false =>
      rw [hactive] at hfinish
      have hend : (Attempt.lift state.nesting.checkClosed >>= fun _ => flush) state =
          (.ok (), after) := hfinish
      obtain ⟨_, middle, -, hflush⟩ := Attempt.bind_eq_ok hend
      exact bytes_of_flush hflush

theorem bytes_of_run {calls : List Call} (hrun : run (calls ++ [.finish]) state = (.ok (), after)) :
    after.output.sink.bytes = after.output.text := by
  rw [run_append] at hrun
  obtain ⟨_, middle, -, hlast⟩ := Attempt.bind_eq_ok hrun
  obtain ⟨_, _, hfinish, hend⟩ := Attempt.bind_eq_ok hlast
  cases hend
  exact bytes_of_finish hfinish

end Writer.State

namespace Draft

variable {config : Config}

def run (config : Config) : List Writer.Call → Attempt Draft Unit
  | [] => pure ()
  | call :: calls => do
      perform config call
      run config calls

theorem run_append (first second : List Writer.Call) :
    run config (first ++ second) = (do run config first; run config second) := by
  induction first with
  | nil => simp [run]
  | cons call calls ih => simp [run, ih, bind_assoc]

theorem run_enclosed (first last : Writer.Call) (calls : List Writer.Call) :
    run config (first :: calls ++ [last]) =
      (do perform config first; run config calls; perform config last) := by
  rw [List.cons_append, run, run_append]
  simp [run]

theorem Shows.run (calls : List Writer.Call) :
    Attempt.Agrees (Shows config) (Writer.State.run calls) (Draft.run config calls) := by
  induction calls with
  | nil => exact .pure ()
  | cons call calls ih => exact .bind (Shows.perform call) fun _ => ih

theorem Shows.run_ok {state : Writer.State} {draft after : Draft} {calls : List Writer.Call}
    (hshows : Shows config state draft) (hrun : Draft.run config calls draft = (.ok (), after)) :
    ∃ last, Writer.run calls { state } = (.ok (), { state := last }) ∧
      Shows config last after := by
  obtain ⟨hresult, hlast⟩ := Shows.run calls state draft hshows
  rcases hcalls : Writer.State.run calls state with ⟨result, last⟩
  rw [hcalls, hrun] at hresult hlast
  cases hresult
  exact ⟨last, by rw [Writer.run_eq, Latch.call_of_ok hcalls], hlast⟩

def initial (config : Config) (sink : Sink) : Draft where
  nesting := { enabled := config.writeTracking, limit := config.trackingLimit }
  text := sink.bytes

theorem Shows.create {sink : Sink} {writer : Writer} (hsink : sink.Reliable)
    (hcreate : Writer.create config sink = .ok writer) :
    writer.error? = none ∧ Shows config writer.state (initial config sink) := by
  obtain ⟨_, -, hcreate⟩ := bind_eq_ok hcreate
  obtain ⟨_, -, hcreate⟩ := bind_eq_ok hcreate
  cases hcreate
  exact ⟨rfl, {
    options := rfl
    nesting := rfl
    text := List.append_nil _
    reliable := hsink
    builder := {
      enabled := rfl
      options := rfl
      pageSize := rfl
      pages := fun _ => rfl
      length := rfl
      holds := .none } }⟩

/-- What some calls and a final finish come to. -/
def outcome (config : Config) (calls : List Writer.Call) (draft : Draft) : Except Error Bytes :=
  match run config (calls ++ [.finish]) draft with
  | (.ok (), after) => .ok after.text
  | (.error error, _) => .error error

/-- Over a reliable sink a writer leaves the text of its draft. -/
theorem encodeCalls_eq {sink : Sink} (hsink : sink.Reliable) (calls : List Writer.Call) :
    Writer.encodeCalls config sink calls =
      (Writer.create config sink >>= fun _ => outcome config calls (initial config sink)) := by
  rw [Writer.encodeCalls]
  cases hcreate : Writer.create config sink with
  | error error => rfl
  | ok writer =>
      obtain ⟨state, error?⟩ := writer
      obtain ⟨rfl, hshows⟩ := Shows.create hsink hcreate
      obtain ⟨hresult, hafter⟩ := Shows.run (calls ++ [.finish]) state _ hshows
      rcases hrun : Writer.State.run (calls ++ [.finish]) state with ⟨result, after⟩
      rcases hdraft : run config (calls ++ [.finish]) (initial config sink) with ⟨other, draft⟩
      rw [hrun, hdraft] at hresult hafter
      cases hresult
      simp only [bind, Except.bind, outcome, hdraft, Writer.run_eq]
      cases result with
      | error error => rw [Latch.call_of_error hrun]
      | ok done =>
          rw [Latch.call_of_ok hrun]
          exact congrArg Except.ok ((Writer.State.bytes_of_run hrun).trans hafter.text)

end Draft
end MessagePack
