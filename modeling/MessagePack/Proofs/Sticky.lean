import MessagePack.Proofs.Attempt
import MessagePack.Reader.Call
import MessagePack.Tree.Node
import MessagePack.Tree.Stream
import MessagePack.Writer

/-!
Errors stick. Whatever is asked of a component, from the first answer that is an error on it
answers with that error and stays as it is.
-/

namespace MessagePack

namespace Latch

variable {κ σ ρ α β : Type}

/-- The answers to some requests, one after the other, and where they lead. -/
def serveAll (serve : κ → Latch σ → ρ × Latch σ) : List κ → Latch σ → List ρ × Latch σ
  | [], latch => ([], latch)
  | request :: rest, latch =>
      let (answer, middle) := serve request latch
      let (answers, after) := serveAll serve rest middle
      (answer :: answers, after)

theorem serveAll_append (serve : κ → Latch σ → ρ × Latch σ) (first second : List κ)
    (latch : Latch σ) :
    (serveAll serve (first ++ second) latch).2 =
      (serveAll serve second (serveAll serve first latch).2).2 := by
  induction first generalizing latch with
  | nil => rfl
  | cons request rest ih => exact ih (serve request latch).2

/-- What every request keeps, all of them together keep. -/
theorem serveAll_keeps {serve : κ → Latch σ → ρ × Latch σ} {holds : Latch σ → Prop}
    (hserve : ∀ request latch, holds latch → holds (serve request latch).2) (requests : List κ)
    {latch : Latch σ} (hlatch : holds latch) : holds (serveAll serve requests latch).2 := by
  induction requests generalizing latch with
  | nil => exact hlatch
  | cons request rest ih => exact ih (hserve request latch hlatch)

/-- Behind an answer that is an error come only the answers of a component that is stuck with
it, and the component stays the same. -/
def Sticks (serve : κ → Latch σ → ρ × Latch σ) (error? : ρ → Option Error)
    (stuck : Error → κ → ρ) (same : Latch σ → Latch σ → Prop) : Prop :=
  ∀ latch before request answer failed error later,
    serve request (serveAll serve before latch).2 = (answer, failed) →
    error? answer = some error →
    (serveAll serve later failed).1 = later.map (stuck error) ∧
      same failed (serveAll serve later failed).2

section

variable {serve : κ → Latch σ → ρ × Latch σ} {error? : ρ → Option Error}
  {stuck : Error → κ → ρ} {same : Latch σ → Latch σ → Prop}

/-- What one request meets in a failed component, every later one meets. -/
theorem serveAll_stuck (hrefl : ∀ latch, same latch latch)
    (htrans : ∀ first second third, same first second → same second third → same first third)
    (hstuck : ∀ request latch error, latch.error? = some error →
      (serve request latch).1 = stuck error request ∧
        same latch (serve request latch).2 ∧ (serve request latch).2.error? = some error)
    {latch : Latch σ} {error : Error} (herror : latch.error? = some error) (later : List κ) :
    (serveAll serve later latch).1 = later.map (stuck error) ∧
      same latch (serveAll serve later latch).2 := by
  induction later generalizing latch with
  | nil => exact ⟨rfl, hrefl latch⟩
  | cons request rest ih =>
      obtain ⟨hanswer, hsame, hnext⟩ := hstuck request latch error herror
      obtain ⟨hanswers, hrest⟩ := ih hnext
      refine ⟨?_, htrans _ _ _ hsame hrest⟩
      show (serve request latch).1 :: _ = _
      rw [hanswer, hanswers, List.map_cons]

theorem sticks (hrefl : ∀ latch, same latch latch)
    (htrans : ∀ first second third, same first second → same second third → same first third)
    (hrecords : ∀ request latch answer after error, serve request latch = (answer, after) →
      error? answer = some error → after.error? = some error)
    (hstuck : ∀ request latch error, latch.error? = some error →
      (serve request latch).1 = stuck error request ∧
        same latch (serve request latch).2 ∧ (serve request latch).2.error? = some error) :
    Sticks serve error? stuck same := by
  intro latch before request answer failed error later hserve hanswer
  apply serveAll_stuck hrefl htrans hstuck
  exact hrecords request _ answer failed error hserve hanswer

end

/-- A call, or an error that is recorded from outside. -/
inductive Request (κ : Type) where
  | call (call : κ)
  | fail (error : Error)

def serve (perform : κ → Attempt (Latch σ) ρ) :
    Request κ → Latch σ → Except Error ρ × Latch σ
  | .call call, latch => perform call latch
  | .fail error, latch => (.error (fail error latch).1, (fail error latch).2)

def failure? : Except Error ρ → Option Error
  | .ok _ => none
  | .error error => some error

/-- From the first error on, everything is answered with it and the component stays as the
failure has left it. -/
def Sticky (perform : κ → Attempt (Latch σ) ρ) : Prop :=
  Sticks (serve perform) failure? (fun error _ => .error error) Eq

/-- What fails records its error, and nothing is done where one is recorded. -/
structure Guarded (attempt : Attempt (Latch σ) α) : Prop where
  records : ∀ {latch error after}, attempt latch = (.error error, after) →
    after.error? = some error
  stuck : ∀ {latch error}, latch.error? = some error → attempt latch = (.error error, latch)

theorem call_guarded (attempt : Attempt σ α) : Guarded (call attempt) where
  records := by
    intro latch error after hcall
    unfold call at hcall
    split at hcall
    · next found herror =>
        cases hcall
        exact herror
    · split at hcall <;> cases hcall
      rfl
  stuck := by
    intro latch error herror
    simp only [call, herror]

theorem query_guarded (look : σ → Except Error α) : Guarded (query look) :=
  call_guarded _

/-- A call changes the state as its attempt does, or not at all. -/
theorem call_keeps {holds : σ → Prop} {attempt : Attempt σ α} {latch : Latch σ}
    (hattempt : ∀ state, holds state → holds (attempt state).2) (hlatch : holds latch.state) :
    holds (call attempt latch).2.state := by
  obtain ⟨state, error?⟩ := latch
  cases error? with
  | some error => exact hlatch
  | none =>
      have hafter := hattempt state hlatch
      rcases hrun : attempt state with ⟨result, after⟩
      rw [hrun] at hafter
      cases result with
      | ok value => rwa [call_of_ok hrun]
      | error error => rwa [call_of_error hrun]

theorem query_state (look : σ → Except Error α) (latch : Latch σ) :
    (query look latch).2.state = latch.state :=
  @call_keeps _ _ (· = latch.state) _ _ (fun _ hstate => hstate) rfl

theorem fail_state (error : Error) (latch : Latch σ) :
    (fail error latch).2.state = latch.state := by
  unfold fail
  split <;> rfl

theorem Related.fail {τ : Type} {related : σ → τ → Prop} {latch : Latch σ} {other : Latch τ}
    (error : Error) (hrelated : Related related latch other) :
    Related related (latch.fail error).2 (other.fail error).2 := by
  refine ⟨?_, ?_⟩
  · rw [fail_state, fail_state]
    exact hrelated.state
  · unfold Latch.fail
    rw [hrelated.error]
    cases hfound : other.error? with
    | some found => exact hrelated.error
    | none => rfl

theorem Guarded.bind {first : Attempt (Latch σ) α} {next : α → Attempt (Latch σ) β}
    (hfirst : Guarded first) (hnext : ∀ value latch error after,
      next value latch = (.error error, after) → after.error? = some error) :
    Guarded (first >>= next) where
  records := by
    intro latch error after hbind
    rcases hrun : first latch with ⟨outcome, middle⟩
    cases outcome with
    | ok value =>
        rw [Attempt.bind_of_ok hrun] at hbind
        exact hnext value middle error after hbind
    | error found =>
        rw [Attempt.bind_of_error hrun] at hbind
        cases hbind
        exact hfirst.records hrun
  stuck := fun herror => Attempt.bind_of_error (hfirst.stuck herror)

variable {perform : κ → Attempt (Latch σ) ρ} {latch after : Latch σ} {request : Request κ}
  {error : Error}

theorem serve_records (hguarded : ∀ call, Guarded (perform call))
    (hserve : serve perform request latch = (.error error, after)) :
    after.error? = some error := by
  cases request with
  | call call => exact (hguarded call).records hserve
  | fail found =>
      cases herror : latch.error? with
      | some first =>
          simp only [serve, fail, herror] at hserve
          cases hserve
          exact herror
      | none =>
          simp only [serve, fail, herror] at hserve
          cases hserve
          rfl

theorem serve_stuck (hguarded : ∀ call, Guarded (perform call))
    (herror : latch.error? = some error) :
    serve perform request latch = (.error error, latch) := by
  cases request with
  | call call => exact (hguarded call).stuck herror
  | fail found => simp only [serve, fail, herror]

theorem sticky (hguarded : ∀ call, Guarded (perform call)) : Sticky perform := by
  apply sticks
  · exact fun _ => rfl
  · exact fun _ _ _ => Eq.trans
  · intro request latch answer after error hserve hanswer
    cases answer with
    | ok value => cases hanswer
    | error found =>
        cases hanswer
        exact serve_records hguarded hserve
  · intro request latch error herror
    rw [serve_stuck hguarded herror]
    exact ⟨rfl, rfl, herror⟩

end Latch

namespace Stream

inductive Request where
  | next
  | pull
  | setLive (live : Bool)
  | setMaxDepth (maxDepth : Nat)

inductive Answer where
  | result (tree? : Except Error (Option Tree))
  | item (item? : Option (Except Error Tree))
  | done

def Answer.error? : Answer → Option Error
  | .result (.error error) | .item (some (.error error)) => some error
  | .result (.ok _) | .item (some (.ok _)) | .item none | .done => none

def serve : Request → Stream → Answer × Stream
  | .next, stream => (.result (next stream).1, (next stream).2)
  | .pull, stream => (.item (pull stream).1, (pull stream).2)
  | .setLive live, stream => (.done, stream.setLive live)
  | .setMaxDepth maxDepth, stream => (.done, stream.setMaxDepth maxDepth)

/-- Nothing comes out of a failed stream, and switches can still be set. -/
def stuck (error : Error) : Request → Answer
  | .next => .result (.error error)
  | .pull => .item none
  | .setLive _ | .setMaxDepth _ => .done

/-- Only switches have been set. -/
def SetTo (stream after : Stream) : Prop :=
  ∃ live maxDepth, after = { stream with state := { stream.state with live, maxDepth } }

theorem SetTo.refl (stream : Stream) : SetTo stream stream :=
  ⟨_, _, rfl⟩

theorem SetTo.trans {first second third : Stream} (hfirst : SetTo first second)
    (hsecond : SetTo second third) : SetTo first third := by
  obtain ⟨_, _, rfl⟩ := hfirst
  obtain ⟨live, maxDepth, rfl⟩ := hsecond
  exact ⟨live, maxDepth, rfl⟩

theorem pull_records {stream after : Stream} {error : Error}
    (hpull : pull stream = (some (.error error), after)) : after.error? = some error := by
  unfold pull at hpull
  split at hpull
  · cases hpull
  · split at hpull
    · cases hpull
    · cases hpull
    · next found middle hnext =>
        cases hpull
        exact (Latch.call_guarded State.next).records hnext

theorem serve_records {request : Request} {stream after : Stream} {answer : Answer}
    {error : Error} (hserve : serve request stream = (answer, after))
    (hanswer : answer.error? = some error) : after.error? = some error := by
  cases request with
  | next =>
      cases hserve
      rcases hnext : next stream with ⟨result, after⟩
      rw [hnext] at hanswer
      cases result with
      | ok tree? => cases hanswer
      | error found =>
          cases hanswer
          exact (Latch.call_guarded State.next).records hnext
  | pull =>
      cases hserve
      rcases hpull : pull stream with ⟨item?, after⟩
      rw [hpull] at hanswer
      rcases item? with _ | (found | tree)
      · cases hanswer
      · cases hanswer
        exact pull_records hpull
      · cases hanswer
  | setLive live => cases hserve; cases hanswer
  | setMaxDepth maxDepth => cases hserve; cases hanswer

theorem serve_stuck {stream : Stream} {error : Error} (herror : stream.error? = some error)
    (request : Request) : (serve request stream).1 = stuck error request ∧
      SetTo stream (serve request stream).2 ∧ (serve request stream).2.error? = some error := by
  cases request with
  | next =>
      have hnext : next stream = (.error error, stream) :=
        (Latch.call_guarded State.next).stuck herror
      rw [serve, hnext]
      exact ⟨rfl, .refl stream, herror⟩
  | pull =>
      have hpull : pull stream = (none, stream) := by simp only [pull, herror]
      rw [serve, hpull]
      exact ⟨rfl, .refl stream, herror⟩
  | setLive live => exact ⟨rfl, ⟨live, _, rfl⟩, herror⟩
  | setMaxDepth maxDepth => exact ⟨rfl, ⟨_, maxDepth, rfl⟩, herror⟩

theorem sticks_serve : Latch.Sticks serve Answer.error? stuck SetTo :=
  Latch.sticks SetTo.refl (fun _ _ _ => SetTo.trans)
    (fun _ _ _ _ _ => serve_records) (fun request _ _ herror => serve_stuck herror request)

end Stream

namespace Tree

inductive Call where
  | ask (id : NodeId) (query : Query)
  | finish

def perform : Call → Attempt Session Answer
  | .ask id query => ask id query
  | .finish => do
      finish
      return .done

theorem perform_guarded (call : Call) : Latch.Guarded (perform call) := by
  cases call with
  | ask id query => exact Latch.query_guarded fun tree : Tree => tree.answer id query
  | finish =>
      apply Latch.Guarded.bind (Latch.query_guarded fun _ : Tree => .ok ())
      intro value latch error after hpure
      cases hpure

theorem perform_state (call : Call) (session : Session) :
    (perform call session).2.state = session.state := by
  cases call with
  | ask id query => exact Latch.query_state _ session
  | finish =>
      have hfinish := Latch.query_state (fun _ : Tree => .ok ()) session
      rcases hrun : finish session with ⟨outcome, after⟩
      rw [show Latch.query (fun _ : Tree => .ok ()) session = (outcome, after) from hrun]
        at hfinish
      cases outcome with
      | ok value =>
          rw [perform, Attempt.bind_of_ok hrun]
          exact hfinish
      | error error =>
          rw [perform, Attempt.bind_of_error hrun]
          exact hfinish

theorem serve_state (request : Latch.Request Call) (session : Session) :
    (Latch.serve perform request session).2.state = session.state := by
  cases request with
  | call call => exact perform_state call session
  | fail error => exact Latch.fail_state error session

theorem serveAll_state (requests : List (Latch.Request Call)) (session : Session) :
    (Latch.serveAll (Latch.serve perform) requests session).2.state = session.state := by
  have hserve : ∀ request (other : Session), other.state = session.state →
      (Latch.serve perform request other).2.state = session.state :=
    fun request other hother => (serve_state request other).trans hother
  exact Latch.serveAll_keeps hserve requests rfl

end Tree

/-- The end of the input is no failure. -/
theorem Reader.perform_atEnd {ι : Type} [ByteInput ι] {reader : Reader ι}
    {after : Reader.State ι} {needed available : Nat} (herror : reader.error? = none)
    (hahead : Reader.State.onInput (ByteInput.ahead 1) reader.state =
      (.error (.truncated needed available), after)) :
    Reader.perform .atEnd reader = (.ok (.bool true), { state := after }) := by
  obtain ⟨state, error?⟩ := reader
  obtain rfl : error? = none := herror
  have hend : State.atEnd state = (.ok true, after) := by simp only [State.atEnd, hahead]
  apply Latch.call_of_ok
  rw [State.perform, Attempt.bind_of_ok hend]
  rfl

/-- Once something has failed, every later call fails with the same error and changes nothing:
readers, writers and trees answer with the error, streams give nothing more. The tree behind a
session never changes, nor do its tags and renderings; the end of the input is no failure. -/
theorem errors_stick :
    (∀ (ι : Type) [ByteInput ι], Latch.Sticky (@Reader.perform ι _)) ∧
    Latch.Sticky Writer.perform ∧
    Latch.Sticks Stream.serve Stream.Answer.error? Stream.stuck Stream.SetTo ∧
    Latch.Sticky Tree.perform ∧
    (∀ requests session,
      (Latch.serveAll (Latch.serve Tree.perform) requests session).2.state = session.state) ∧
    (∀ (ι : Type) [ByteInput ι] (reader : Reader ι) needed available after,
      reader.error? = none →
      Reader.State.onInput (ByteInput.ahead 1) reader.state =
        (.error (.truncated needed available), after) →
      Reader.perform .atEnd reader = (.ok (.bool true), { state := after })) := by
  refine ⟨?_, ?_, Stream.sticks_serve, ?_, Tree.serveAll_state, ?_⟩
  · intro ι _
    exact Latch.sticky fun call => Latch.call_guarded (Reader.State.perform call)
  · exact Latch.sticky fun call => Latch.call_guarded (Writer.State.perform call)
  · exact Latch.sticky Tree.perform_guarded
  · intro ι _ reader needed available after
    exact Reader.perform_atEnd

theorem errors_stick_nothingOpen :
    ∃ writer failed, Writer.create {} {} = .ok writer ∧
      Latch.serve Writer.perform (.call (.finishCompound .array)) writer =
        (.error (.usage .nothingOpen), failed) ∧
      Latch.serveAll (Latch.serve Writer.perform)
        [.call (.tag .nil), .fail (.tooBig 1 0), .call .flush] failed =
        ([.error (.usage .nothingOpen), .error (.usage .nothingOpen),
          .error (.usage .nothingOpen)], failed) := by
  obtain ⟨writer, failed, hcreate, hclose⟩ : ∃ writer failed,
      Writer.create {} {} = .ok writer ∧
      Latch.serve Writer.perform (.call (.finishCompound .array)) writer =
        (.error (.usage .nothingOpen), failed) := ⟨_, _, rfl, rfl⟩
  obtain ⟨hanswers, hfailed⟩ := errors_stick.2.1 writer [] (.call (.finishCompound .array)) _
    failed _ [.call (.tag .nil), .fail (.tooBig 1 0), .call .flush] hclose rfl
  exact ⟨writer, failed, hcreate, hclose, Prod.ext hanswers hfailed.symm⟩

end MessagePack
