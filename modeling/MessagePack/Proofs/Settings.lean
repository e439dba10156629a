import MessagePack.Proofs.Buffering

/-!
What no call changes: the options of a reader, its bounds, and whether it tracks nesting.
-/

namespace MessagePack

namespace Attempt

variable {σ ρ α β : Type} {part : σ → ρ}

/-- The attempt leaves a part of the state as it is, failing or not. -/
def Keeps (part : σ → ρ) (attempt : Attempt σ α) : Prop :=
  ∀ state, part (attempt state).2 = part state

namespace Keeps

theorem run {attempt : Attempt σ α} {state after : σ} {result : Except Error α}
    (hkeeps : Keeps part attempt) (hrun : attempt state = (result, after)) :
    part after = part state := by
  rw [← hkeeps state, hrun]

theorem pure (value : α) : Keeps part (Pure.pure value) :=
  fun _ => rfl

theorem throw (error : Error) : Keeps part (throwThe Error error : Attempt σ α) :=
  fun _ => rfl

theorem throw_bind (error : Error) (next : α → Attempt σ β) :
    Keeps part (throwThe Error error >>= next) :=
  fun _ => rfl

theorem lift (outcome : Except Error α) : Keeps part (Attempt.lift outcome) :=
  fun _ => rfl

theorem bind {attempt : Attempt σ α} {next : α → Attempt σ β} (hattempt : Keeps part attempt)
    (hnext : ∀ value, Keeps part (next value)) : Keeps part (attempt >>= next) := by
  intro state
  rcases hrun : attempt state with ⟨result, middle⟩
  cases result with
  | error error =>
      rw [bind_of_error hrun]
      exact hattempt.run hrun
  | ok value =>
      rw [bind_of_ok hrun]
      exact (hnext value middle).trans (hattempt.run hrun)

theorem get {next : σ → Attempt σ α} (hnext : ∀ state, Keeps part (next state)) :
    Keeps part (MonadState.get >>= next) :=
  fun state => hnext state state

theorem modify {change : σ → σ} (hchange : ∀ state, part (change state) = part state) :
    Keeps part (modify change : Attempt σ PUnit) :=
  hchange

end Keeps
end Attempt

namespace Nesting

/-- Whether nesting is tracked and how deep it may be. -/
def settings (nesting : Nesting) : Bool × Option Nat :=
  (nesting.enabled, nesting.limit)

variable {nesting after : Nesting}

theorem settings_push {frame : Frame} (hpush : nesting.push frame = .ok after) :
    after.settings = nesting.settings := by
  unfold push at hpush
  repeat' split at hpush
  all_goals cases hpush
  all_goals rfl

theorem settings_element (helement : nesting.element = .ok after) :
    after.settings = nesting.settings := by
  unfold element at helement
  repeat' split at helement
  all_goals cases helement
  all_goals rfl

theorem settings_enterTag {tag : Tag} (henter : nesting.enterTag tag = .ok after) :
    after.settings = nesting.settings := by
  unfold enterTag at henter
  split at henter
  · exact settings_push henter
  · cases henter
    rfl

theorem settings_bytes {n : Nat} (hbytes : nesting.bytes n = .ok after) :
    after.settings = nesting.settings := by
  unfold bytes at hbytes
  repeat' split at hbytes
  all_goals cases hbytes
  all_goals rfl

theorem settings_leave {kind : Compound} (hleave : nesting.leave kind = .ok after) :
    after.settings = nesting.settings := by
  unfold leave at hleave
  repeat' split at hleave
  all_goals cases hleave
  all_goals rfl

end Nesting

namespace Reader.State

variable {ι α : Type}

/-- What a reader was given beside its input. -/
def settings (state : State ι) : TagOptions × Nat × Bool × Option Nat :=
  (state.options, state.maxAlloc, state.nesting.settings)

theorem settings_track {operation : Nesting → Except Error Nesting}
    (hoperation : ∀ nesting after, operation nesting = .ok after →
      after.settings = nesting.settings) :
    Attempt.Keeps (@settings ι) (track operation) := by
  intro state
  cases hchanged : operation state.nesting with
  | error error => rw [track, Attempt.update_of_error hchanged]
  | ok changed =>
      rw [track, Attempt.update_of_ok hchanged]
      simp only [settings, hoperation _ _ hchanged]

theorem settings_onInput (attempt : Attempt ι α) :
    Attempt.Keeps (@settings ι) (onInput attempt) :=
  fun _ => rfl

theorem settings_leave (kind : Compound) : Attempt.Keeps (@settings ι) (leave kind) :=
  settings_track fun _ _ => Nesting.settings_leave

theorem settings_unwind (levels : List (Compound × Nat)) :
    Attempt.Keeps (@settings ι) (unwind levels) := by
  induction levels with
  | nil => exact .pure _
  | cons level outer ih =>
      rw [unwind]
      split
      · exact .bind (settings_leave _) fun _ => ih
      · exact .pure _

theorem settings_inRange {word : Attempt (State ι) α} (hword : Attempt.Keeps settings word)
    (accepts : α → Bool) : Attempt.Keeps settings (inRange accepts word) := by
  refine .bind hword fun found => ?_
  split
  · exact .throw_bind _ _
  · exact .pure _

theorem settings_atMost {count : Attempt (State ι) UInt32} (hcount : Attempt.Keeps settings count)
    (limit : UInt32) : Attempt.Keeps settings (atMost limit count) := by
  refine .bind hcount fun found => ?_
  split
  · exact .throw_bind _ _
  · exact .pure _

theorem settings_exactly {count : Attempt (State ι) UInt32}
    (hcount : Attempt.Keeps settings count) (wanted : UInt32) :
    Attempt.Keeps settings (exactly wanted count) := by
  refine .bind hcount fun found => ?_
  split
  · exact .throw _
  · exact .pure _

theorem settings_counted {count : Attempt (State ι) UInt32}
    (hcount : Attempt.Keeps settings count) : Attempt.Keeps settings (counted count) :=
  .bind hcount fun _ => .pure _

variable [ByteInput ι]

theorem settings_header : Attempt.Keeps (@settings ι) header :=
  .bind (settings_onInput _) fun _ => .bind (settings_onInput _) fun _ =>
    .get fun _ => .bind (.lift _) fun _ => .pure _

theorem settings_nextTag (view : Tag → Tag) : Attempt.Keeps (@settings ι) (nextTag view) :=
  .bind settings_header fun _ =>
    .bind (settings_track fun _ _ => Nesting.settings_element) fun _ =>
    .bind (settings_track fun _ _ => Nesting.settings_enterTag) fun _ =>
    .bind (.modify fun _ => rfl) fun _ => .pure _

theorem settings_readBytes (n : Nat) : Attempt.Keeps (@settings ι) (readBytes n) :=
  .bind (settings_track fun _ _ => Nesting.settings_bytes) fun _ => settings_onInput _

theorem settings_skipBytes (n : Nat) : Attempt.Keeps (@settings ι) (skipBytes n) :=
  .bind (settings_track fun _ _ => Nesting.settings_bytes) fun _ => settings_onInput _

theorem settings_copyBytes (n : Nat) : Attempt.Keeps (@settings ι) (copyBytes n) := by
  refine .get fun state => ?_
  by_cases hlarge : state.maxAlloc < n
  · simp only [hlarge, if_true]
    exact .throw_bind _ _
  · simp only [hlarge, if_false]
    exact settings_readBytes n

theorem settings_readText (n : Nat) : Attempt.Keeps (@settings ι) (readText n) := by
  refine .bind (settings_copyBytes n) fun content => ?_
  split
  · exact .pure _
  · exact .throw _

theorem settings_atEnd : Attempt.Keeps (@settings ι) atEnd := by
  intro state
  unfold atEnd
  split
  all_goals next hahead => exact (settings_onInput (ByteInput.ahead 1)).run hahead

theorem settings_passOver (tag : Tag) : Attempt.Keeps (@settings ι) (passOver tag) := by
  unfold passOver
  split
  · exact .pure _
  · split
    · exact .bind (settings_skipBytes _) fun _ => settings_leave _
    · exact settings_leave _

theorem settings_discardWithin (levels : List (Compound × Nat)) :
    Attempt.Keeps (@settings ι) (discardWithin levels) := by
  intro state
  have hread : Attempt.Keeps (@settings ι) readTag := settings_nextTag id
  have hpass : ∀ tag levels, Attempt.Keeps (@settings ι) (do passOver tag; unwind levels) :=
    fun tag levels => .bind (settings_passOver tag) fun _ => settings_unwind levels
  fun_induction discardWithin levels state with
  | case1 levels state error after hstate => exact hread.run hstate
  | case2 levels state tag after hstate level howes ih => exact ih.trans (hread.run hstate)
  | case3 levels state tag after hstate howes error last hpassed =>
      exact ((hpass tag levels).run hpassed).trans (hread.run hstate)
  | case4 levels state tag after hstate howes last hpassed =>
      exact ((hpass tag levels).run hpassed).trans (hread.run hstate)
  | case5 levels state tag after hstate howes level outer last hpassed ih =>
      exact ih.trans (((hpass tag levels).run hpassed).trans (hread.run hstate))

theorem settings_expect (view : Tag → Except Error α) :
    Attempt.Keeps (@settings ι) (expect view) :=
  .bind (settings_nextTag id) fun _ => .lift _

theorem settings_expectNumber (view : Tag → Except Error α) :
    Attempt.Keeps (@settings ι) (expectNumber view) :=
  .get fun _ => .bind (.lift _) fun _ => settings_expect view

theorem settings_expectBin : Attempt.Keeps (@settings ι) expectBin := by
  refine .get fun state => .bind (settings_nextTag _) fun tag => ?_
  split
  · exact .pure _
  · exact .lift _

theorem settings_expectText : Attempt.Keeps (@settings ι) expectText :=
  .bind (settings_expect _) fun _ => .bind (settings_readText _) fun _ =>
    .bind (settings_leave _) fun _ => .pure _

theorem settings_expectBinary : Attempt.Keeps (@settings ι) expectBinary :=
  .bind settings_expectBin fun _ => .bind (settings_copyBytes _) fun _ =>
    .bind (settings_leave _) fun _ => .pure _

theorem settings_expectSameText (text : String) :
    Attempt.Keeps (@settings ι) (expectSameText text) := by
  refine .bind (settings_expect _) fun length => ?_
  split
  · exact .throw_bind _ _
  · refine .bind (settings_copyBytes _) fun content => .bind (settings_leave _) fun _ => ?_
    split
    · exact .throw _
    · exact .pure _

theorem settings_expectName (names : List String) :
    Attempt.Keeps (@settings ι) (expectName names) := by
  refine .bind (settings_expect _) fun length => ?_
  split
  · refine .bind (settings_copyBytes _) fun _ => .bind (.pure _) fun index? =>
      .bind (settings_leave _) fun _ => ?_
    cases index? with
    | none => exact .throw _
    | some index => exact .pure _
  · refine .bind (settings_skipBytes _) fun _ => .bind (.pure _) fun index? =>
      .bind (settings_leave _) fun _ => ?_
    cases index? with
    | none => exact .throw _
    | some index => exact .pure _

theorem settings_expectKey (keys : List String) (found : List Bool) :
    Attempt.Keeps (@settings ι) (expectKey keys found) := by
  unfold expectKey
  split
  · exact .throw_bind _ _
  · refine .bind (settings_expectName keys) fun index => ?_
    split
    · exact .throw_bind _ _
    · exact .pure _

theorem settings_perform (call : Call) : Attempt.Keeps (@settings ι) (perform call) := by
  cases call with
  | readTag => exact .bind (settings_nextTag id) fun _ => .pure _
  | peekTag => exact .bind (.bind settings_header fun _ => .pure _) fun _ => .pure _
  | readBytes n => exact .bind (settings_readBytes n) fun _ => .pure _
  | copyBytes n => exact .bind (settings_copyBytes n) fun _ => .pure _
  | readText n => exact .bind (settings_readText n) fun _ => .pure _
  | skipBytes n => exact .bind (settings_skipBytes n) fun _ => .pure _
  | leave kind => exact .bind (settings_leave kind) fun _ => .pure _
  | discard => exact .bind (settings_discardWithin []) fun _ => .pure _
  | atEnd => exact .bind settings_atEnd fun _ => .pure _
  | finish => exact .bind (.get fun _ => .lift _) fun _ => .pure _
  | expectNil | expectBool | expectSingleBits | expectDoubleBits =>
      exact .bind (settings_expect _) fun _ => .pure _
  | expectUnsigned bits | expectSigned bits | expectUnsignedIn least greatest
  | expectSignedIn least greatest =>
      exact .bind (settings_inRange (settings_expect _) _) fun _ => .pure _
  | expectSingle | expectDouble | expectExactSingle | expectExactDouble =>
      exact .bind (settings_expectNumber _) fun _ => .pure _
  | expectArray | expectMap | expectStr => exact settings_counted (settings_expect _)
  | expectBin => exact settings_counted settings_expectBin
  | expectArrayAtMost limit | expectMapAtMost limit | expectStrAtMost limit =>
      exact settings_counted (settings_atMost (settings_expect _) limit)
  | expectBinAtMost limit => exact settings_counted (settings_atMost settings_expectBin limit)
  | expectArrayOf count | expectMapOf count =>
      exact .bind (settings_exactly (settings_expect _) count) fun _ => .pure _
  | expectText => exact .bind settings_expectText fun _ => .pure _
  | expectSameText text => exact .bind (settings_expectSameText text) fun _ => .pure _
  | expectBinary => exact .bind settings_expectBinary fun _ => .pure _
  | expectExt => exact .bind (settings_expect _) fun _ => .pure _
  | expectName names => exact .bind (settings_expectName names) fun _ => .pure _
  | expectKey keys found => exact .bind (settings_expectKey keys found) fun _ => .pure _

end Reader.State

namespace Value

open Reader.State

variable {ι σ α : Type} [ByteInput ι]

theorem settings_collect {part : σ → α} {β : Type} {attempt : Attempt σ β}
    (hattempt : Attempt.Keeps part attempt) (n : Nat) (found : Array β) :
    Attempt.Keeps part (collect attempt n found) := by
  induction n generalizing found with
  | zero => exact .pure _
  | succ n ih => exact .bind hattempt fun next => ih (found.push next)

theorem settings_readWithin (fuel : Nat) :
    Attempt.Keeps (@Reader.State.settings ι) (readWithin fuel) := by
  induction fuel with
  | zero => exact .throw _
  | succ fuel ih =>
      refine .bind (settings_nextTag id) fun tag => ?_
      have hpair : Attempt.Keeps (@Reader.State.settings ι) (readPair (readWithin fuel)) :=
        .bind ih fun _ => .bind ih fun _ => .pure _
      cases tag with
      | str length =>
          exact .bind (settings_readText _) fun _ => .bind (settings_leave _) fun _ => .pure _
      | bin length | ext type length =>
          exact .bind (settings_copyBytes _) fun _ => .bind (settings_leave _) fun _ => .pure _
      | array count =>
          exact .bind (settings_collect ih _ _) fun _ => .bind (settings_leave _) fun _ => .pure _
      | map pairs =>
          exact .bind (settings_collect hpair _ _) fun _ =>
            .bind (settings_leave _) fun _ => .pure _
      | _ => exact .pure _

theorem settings_read : Attempt.Keeps (@Reader.State.settings ι) read :=
  .get fun _ => settings_readWithin _

end Value
end MessagePack
