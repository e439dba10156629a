import MessagePack.Proofs.Input
import MessagePack.Reader.Call
import MessagePack.Value

/-!
Reading over different inputs. If two inputs answer alike, so do the readers over them, whatever
they are asked. A buffer in front of a steady source answers as the bytes themselves do.
-/

namespace MessagePack

theorem Form.bodyLength_le (form : Form) : form.bodyLength ≤ 8 := by
  cases form with
  | bin k | ext k | uint k | int k | str k | array k | map k => revert k; decide
  | _ => simp [bodyLength]

theorem Header.size_le (marker : UInt8) : size marker ≤ maxSize :=
  Nat.succ_le_succ (Form.bodyLength_le _)

/-- Related inputs answer alike and stay related. -/
structure ByteInput.Simulates {ι κ : Type} [ByteInput ι] [ByteInput κ] (related : ι → κ → Prop) :
    Prop where
  size {input : ι} {other : κ} (hrelated : related input other) :
    ByteInput.size input = ByteInput.size other
  ahead {n : Nat} (hn : n ≤ Header.maxSize) :
    Attempt.Agrees related (ByteInput.ahead n) (ByteInput.ahead n)
  consume {n : Nat} {input after : ι} {other later : κ} {bytes : Bytes} (hn : n ≤ Header.maxSize)
    (hrelated : related input other) (hahead : ByteInput.ahead n input = (.ok bytes, after))
    (hother : ByteInput.ahead n other = (.ok bytes, later)) :
    related (ByteInput.consume n after) (ByteInput.consume n later)
  take (n : Nat) : Attempt.Agrees related (ByteInput.take n) (ByteInput.take n)
  skip (n : Nat) : Attempt.Agrees related (ByteInput.skip n) (ByteInput.skip n)

namespace Reader.State

variable {ι κ : Type} {related : ι → κ → Prop} {α : Type}

/-- Two readers that differ in their inputs at most, and these are related. -/
structure Related (related : ι → κ → Prop) (state : State ι) (other : State κ) : Prop where
  input : related state.input other.input
  nesting : state.nesting = other.nesting
  options : state.options = other.options
  maxAlloc : state.maxAlloc = other.maxAlloc

theorem track_agrees (operation : Nesting → Except Error Nesting) :
    Attempt.Agrees (Related related) (track operation) (track operation) := by
  apply Attempt.Agrees.update operation
  · exact fun _ _ hrelated => hrelated.nesting
  · exact fun _ _ _ hrelated => { hrelated with nesting := rfl }

theorem leave_agrees (kind : Compound) :
    Attempt.Agrees (Related related) (leave kind) (leave kind) :=
  track_agrees _

theorem finish_agrees : Attempt.Agrees (Related related) finish finish := by
  refine .get fun state other hrelated => ?_
  rw [hrelated.nesting]
  exact .lift _

theorem onInput_agrees {first : Attempt ι α} {second : Attempt κ α}
    (hagrees : Attempt.Agrees related first second) :
    Attempt.Agrees (Related related) (onInput first) (onInput second) := by
  intro state other hrelated
  obtain ⟨hresult, hafter⟩ := hagrees state.input other.input hrelated.input
  exact ⟨hresult, { hrelated with input := hafter }⟩

theorem input_onInput {attempt : Attempt ι α} {state after : State ι} {result : Except Error α}
    (hrun : onInput attempt state = (result, after)) :
    attempt state.input = (result, after.input) := by
  cases hrun
  rfl

/-- What becomes of the nesting when a tag is met. -/
def meet (tag : Tag) : Attempt (State ι) Unit := do
  track Nesting.element
  track (Nesting.enterTag tag)

theorem input_meet {tag : Tag} {state after : State ι} {result : Except Error Unit}
    (hmeet : meet tag state = (result, after)) : after.input = state.input := by
  rcases helement : track Nesting.element state with ⟨outcome, charged⟩
  cases outcome with
  | error error =>
      rw [meet, Attempt.bind_of_error helement] at hmeet
      cases hmeet
      exact input_track helement
  | ok done =>
      rw [meet, Attempt.bind_of_ok helement] at hmeet
      exact (input_track hmeet).trans (input_track helement)

theorem meet_agrees (tag : Tag) : Attempt.Agrees (Related related) (meet tag) (meet tag) :=
  .bind (track_agrees _) fun _ => track_agrees _

section Inputs

variable [ByteInput ι] [ByteInput κ] (hsimulates : ByteInput.Simulates related)

include hsimulates

/-- A header that has been decoded can be passed on both sides. -/
theorem header_agrees {state : State ι} {other : State κ} (hrelated : Related related state other) :
    ∃ result after later, header state = (result, after) ∧ header other = (result, later) ∧
      Related related after later ∧ ∀ tag n, result = .ok (tag, n) →
        related (ByteInput.consume n after.input) (ByteInput.consume n later.input) := by
  have hone : 1 ≤ Header.maxSize := by decide
  rcases hfirst : onInput (ByteInput.ahead 1) state with ⟨result, after⟩
  obtain ⟨later, hother, hafter⟩ := (onInput_agrees (hsimulates.ahead hone)).run hrelated hfirst
  cases result with
  | error error =>
      refine ⟨.error error, after, later, ?_, ?_, hafter, fun _ _ hnone => nomatch hnone⟩
      · rw [header, Attempt.bind_of_error hfirst]
      · rw [header, Attempt.bind_of_error hother]
  | ok first =>
      have hsize := Header.size_le (first.headD 0)
      rcases hmore : onInput (ByteInput.ahead (Header.size (first.headD 0))) after with
        ⟨result, last⟩
      obtain ⟨final, hall, hlast⟩ := (onInput_agrees (hsimulates.ahead hsize)).run hafter hmore
      cases result with
      | error error =>
          refine ⟨.error error, last, final, ?_, ?_, hlast, fun _ _ hnone => nomatch hnone⟩
          · rw [header, Attempt.bind_of_ok hfirst, Attempt.bind_of_error hmore]
          · rw [header, Attempt.bind_of_ok hother, Attempt.bind_of_error hall]
      | ok bytes =>
          have hconsume := hsimulates.consume hsize hafter.input (input_onInput hmore)
            (input_onInput hall)
          rw [header, Attempt.bind_of_ok hfirst, Attempt.bind_of_ok hmore, Attempt.get_bind,
            header, Attempt.bind_of_ok hother, Attempt.bind_of_ok hall, Attempt.get_bind,
            hlast.options]
          cases Header.decode final.options bytes with
          | error error =>
              exact ⟨_, last, final, rfl, rfl, hlast, fun _ _ hnone => nomatch hnone⟩
          | ok found =>
              refine ⟨_, last, final, rfl, rfl, hlast, fun tag n hsame => ?_⟩
              cases hsame
              exact hconsume

theorem peekTag_agrees : Attempt.Agrees (Related related) peekTag peekTag := by
  intro state other hrelated
  obtain ⟨result, after, later, hstate, hother, hafter, -⟩ := header_agrees hsimulates hrelated
  cases result with
  | error error =>
      rw [peekTag, Attempt.bind_of_error hstate, peekTag, Attempt.bind_of_error hother]
      exact ⟨rfl, hafter⟩
  | ok found =>
      rw [peekTag, Attempt.bind_of_ok hstate, peekTag, Attempt.bind_of_ok hother]
      exact ⟨rfl, hafter⟩

omit hsimulates in
theorem nextTag_eq (view : Tag → Tag) :
    (nextTag view : Attempt (State ι) Tag) = (do
      let (found, size) ← header
      meet (view found)
      modify fun state => { state with input := ByteInput.consume size state.input }
      return view found) := by
  simp [nextTag, meet, bind_assoc]

theorem nextTag_agrees (view : Tag → Tag) :
    Attempt.Agrees (Related related) (nextTag view) (nextTag view) := by
  intro state other hrelated
  obtain ⟨result, after, later, hstate, hother, hafter, hconsume⟩ :=
    header_agrees hsimulates hrelated
  cases result with
  | error error =>
      rw [nextTag, Attempt.bind_of_error hstate, nextTag, Attempt.bind_of_error hother]
      exact ⟨rfl, hafter⟩
  | ok found =>
      obtain ⟨tag, n⟩ := found
      rw [nextTag_eq, Attempt.bind_of_ok hstate, nextTag_eq, Attempt.bind_of_ok hother]
      rcases hfirst : meet (view tag) after with ⟨result, last⟩
      obtain ⟨final, hsecond, hmet⟩ := (meet_agrees (view tag)).run hafter hfirst
      cases result with
      | error error =>
          simp only [Attempt.bind_of_error hfirst, Attempt.bind_of_error hsecond, true_and]
          exact hmet
      | ok done =>
          have hpassed : related (ByteInput.consume n last.input)
              (ByteInput.consume n final.input) := by
            rw [input_meet hfirst, input_meet hsecond]
            exact hconsume tag n rfl
          simp only [Attempt.bind_of_ok hfirst, Attempt.bind_of_ok hsecond]
          exact ⟨rfl, { hmet with input := hpassed }⟩

theorem readBytes_agrees (n : Nat) :
    Attempt.Agrees (Related related) (readBytes n) (readBytes n) :=
  .bind (track_agrees _) fun _ => onInput_agrees (hsimulates.take n)

theorem skipBytes_agrees (n : Nat) :
    Attempt.Agrees (Related related) (skipBytes n) (skipBytes n) :=
  .bind (track_agrees _) fun _ => onInput_agrees (hsimulates.skip n)

theorem copyBytes_agrees (n : Nat) :
    Attempt.Agrees (Related related) (copyBytes n) (copyBytes n) := by
  refine .get fun state other hrelated => ?_
  rw [hrelated.maxAlloc]
  by_cases hlarge : other.maxAlloc < n
  · simp only [hlarge, if_true]
    exact .throw_bind _ _ _
  · simp only [hlarge, if_false]
    exact readBytes_agrees hsimulates n

theorem readText_agrees (n : Nat) :
    Attempt.Agrees (Related related) (readText n) (readText n) := by
  refine .bind (copyBytes_agrees hsimulates n) fun content => ?_
  split
  · exact .pure _
  · exact .throw _

theorem atEnd_agrees : Attempt.Agrees (Related related) atEnd atEnd := by
  intro state other hrelated
  have hone : 1 ≤ Header.maxSize := by decide
  rcases hstate : onInput (ByteInput.ahead 1) state with ⟨result, after⟩
  obtain ⟨later, hother, hafter⟩ := (onInput_agrees (hsimulates.ahead hone)).run hrelated hstate
  simp only [atEnd, hstate, hother]
  cases result with
  | ok bytes => exact ⟨rfl, hafter⟩
  | error error => cases error <;> exact ⟨rfl, hafter⟩

/-! Discarding a value. -/

theorem passOver_agrees (tag : Tag) :
    Attempt.Agrees (Related related) (passOver tag) (passOver tag) := by
  unfold passOver
  split
  · exact .pure _
  · next kind count hopens =>
      by_cases hholds : kind.holdsBytes = true
      · simp only [hholds, if_true]
        exact .bind (skipBytes_agrees hsimulates _) fun _ => leave_agrees _
      · simp only [hholds]
        exact leave_agrees _

omit [ByteInput ι] [ByteInput κ] hsimulates in
theorem unwind_agrees (levels : List (Compound × Nat)) :
    Attempt.Agrees (Related related) (unwind levels) (unwind levels) := by
  induction levels with
  | nil => exact .pure _
  | cons level outer ih =>
      obtain ⟨kind, owed⟩ := level
      by_cases hlast : owed ≤ 1
      · simp only [unwind, hlast, if_true]
        exact .bind (leave_agrees _) fun _ => ih
      · simp only [unwind, hlast, if_false]
        exact .pure _

omit [ByteInput κ] hsimulates in
theorem discardWithin_eq (levels : List (Compound × Nat)) (state : State ι) :
    discardWithin levels state = (do
      let tag ← readTag
      match owes? tag with
      | some level => discardWithin (level :: levels)
      | none => do
          let outer ← (do passOver tag; unwind levels)
          match outer with
          | [] => pure ()
          | level :: outer => discardWithin (level :: outer) : Attempt (State ι) Unit) state := by
  rw [discardWithin]
  split
  · next hread => rw [Attempt.bind_of_error hread]
  · next tag after hread =>
      rw [Attempt.bind_of_ok hread]
      split
      · next level howes => simp only [howes]
      · next howes =>
          simp only [howes]
          split
          · next hpass => rw [Attempt.bind_of_error hpass]
          · next hpass => rw [Attempt.bind_of_ok hpass]; rfl
          · next hpass => rw [Attempt.bind_of_ok hpass]

theorem discardWithin_agrees (levels : List (Compound × Nat)) :
    Attempt.Agrees (Related related) (discardWithin levels) (discardWithin levels) := by
  intro state other hrelated
  have hread : Attempt.Agrees (Related related) readTag readTag := nextTag_agrees hsimulates id
  have hpass : ∀ tag levels, Attempt.Agrees (Related related)
      (do passOver tag; unwind levels) (do passOver tag; unwind levels) :=
    fun tag levels => .bind (passOver_agrees hsimulates tag) fun _ => unwind_agrees levels
  fun_induction discardWithin levels state generalizing other with
  | case1 levels state error after hstate =>
      obtain ⟨later, hother, hafter⟩ := hread.run hrelated hstate
      rw [discardWithin_eq, Attempt.bind_of_error hother]
      exact ⟨rfl, hafter⟩
  | case2 levels state tag after hstate level howes ih =>
      obtain ⟨later, hother, hafter⟩ := hread.run hrelated hstate
      rw [discardWithin_eq levels other, Attempt.bind_of_ok hother]
      simp only [howes]
      exact ih later hafter
  | case3 levels state tag after hstate howes error last hpassed =>
      obtain ⟨later, hother, hafter⟩ := hread.run hrelated hstate
      obtain ⟨final, hfinal, hlast⟩ := (hpass tag levels).run hafter hpassed
      rw [discardWithin_eq, Attempt.bind_of_ok hother]
      simp only [howes]
      rw [Attempt.bind_of_error hfinal]
      exact ⟨rfl, hlast⟩
  | case4 levels state tag after hstate howes last hpassed =>
      obtain ⟨later, hother, hafter⟩ := hread.run hrelated hstate
      obtain ⟨final, hfinal, hlast⟩ := (hpass tag levels).run hafter hpassed
      rw [discardWithin_eq, Attempt.bind_of_ok hother]
      simp only [howes]
      rw [Attempt.bind_of_ok hfinal]
      exact ⟨rfl, hlast⟩
  | case5 levels state tag after hstate howes level outer last hpassed ih =>
      obtain ⟨later, hother, hafter⟩ := hread.run hrelated hstate
      obtain ⟨final, hfinal, hlast⟩ := (hpass tag levels).run hafter hpassed
      rw [discardWithin_eq levels other, Attempt.bind_of_ok hother]
      simp only [howes]
      rw [Attempt.bind_of_ok hfinal]
      exact ih final hlast

theorem discard_agrees : Attempt.Agrees (Related related) discard discard :=
  discardWithin_agrees hsimulates []

/-! Typed reads. -/

theorem expect_agrees (view : Tag → Except Error α) :
    Attempt.Agrees (Related related) (expect view) (expect view) :=
  .bind (nextTag_agrees hsimulates id) fun _ => .lift _

theorem expectNumber_agrees (view : Tag → Except Error α) :
    Attempt.Agrees (Related related) (expectNumber view) (expectNumber view) := by
  refine .get fun state other hrelated => ?_
  rw [hrelated.options]
  exact .bind (.lift _) fun _ => expect_agrees hsimulates view

theorem expectBin_agrees : Attempt.Agrees (Related related) expectBin expectBin := by
  refine .get fun state other hrelated => ?_
  rw [hrelated.options]
  refine .bind (nextTag_agrees hsimulates _) fun tag => ?_
  cases tag with
  | bin length => exact .pure _
  | _ => exact .lift _

omit [ByteInput ι] [ByteInput κ] hsimulates in
theorem inRange_agrees {first : Attempt (State ι) α} {second : Attempt (State κ) α}
    (hagrees : Attempt.Agrees (Related related) first second) (accepts : α → Bool) :
    Attempt.Agrees (Related related) (inRange accepts first) (inRange accepts second) := by
  refine .bind hagrees fun found => ?_
  cases haccepts : accepts found with
  | true => exact .pure _
  | false => exact .throw_bind _ _ _

omit [ByteInput ι] [ByteInput κ] hsimulates in
theorem atMost_agrees {first : Attempt (State ι) UInt32} {second : Attempt (State κ) UInt32}
    (hagrees : Attempt.Agrees (Related related) first second) (limit : UInt32) :
    Attempt.Agrees (Related related) (atMost limit first) (atMost limit second) := by
  refine .bind hagrees fun found => ?_
  by_cases hlarge : limit < found
  · simp only [hlarge, if_true]
    exact .throw_bind _ _ _
  · simp only [hlarge, if_false]
    exact .pure _

omit [ByteInput ι] [ByteInput κ] hsimulates in
theorem exactly_agrees {first : Attempt (State ι) UInt32} {second : Attempt (State κ) UInt32}
    (hagrees : Attempt.Agrees (Related related) first second) (wanted : UInt32) :
    Attempt.Agrees (Related related) (exactly wanted first) (exactly wanted second) := by
  refine .bind hagrees fun found => ?_
  by_cases hother : found ≠ wanted
  · rw [if_pos hother, if_pos hother]
    exact .throw _
  · rw [if_neg hother, if_neg hother]
    exact .pure _

theorem expectText_agrees : Attempt.Agrees (Related related) expectText expectText :=
  .bind (expect_agrees hsimulates _) fun _ => .bind (readText_agrees hsimulates _) fun _ =>
    .bind (leave_agrees _) fun _ => .pure _

theorem expectBinary_agrees : Attempt.Agrees (Related related) expectBinary expectBinary :=
  .bind (expectBin_agrees hsimulates) fun _ => .bind (copyBytes_agrees hsimulates _) fun _ =>
    .bind (leave_agrees _) fun _ => .pure _

theorem expectSameText_agrees (text : String) :
    Attempt.Agrees (Related related) (expectSameText text) (expectSameText text) := by
  refine .bind (expect_agrees hsimulates _) fun length => ?_
  split
  · exact .throw_bind _ _ _
  · refine .bind (copyBytes_agrees hsimulates _) fun content => .bind (leave_agrees _) fun _ => ?_
    split
    · exact .throw _
    · exact .pure _

theorem expectName_agrees (names : List String) :
    Attempt.Agrees (Related related) (expectName names) (expectName names) := by
  refine .bind (expect_agrees hsimulates _) fun length => ?_
  split
  · refine .bind (copyBytes_agrees hsimulates _) fun _ => .bind (.pure _) fun index? =>
      .bind (leave_agrees _) fun _ => ?_
    cases index? with
    | none => exact .throw _
    | some index => exact .pure _
  · refine .bind (skipBytes_agrees hsimulates _) fun _ => .bind (.pure _) fun index? =>
      .bind (leave_agrees _) fun _ => ?_
    cases index? with
    | none => exact .throw _
    | some index => exact .pure _

theorem expectKey_agrees (keys : List String) (found : List Bool) :
    Attempt.Agrees (Related related) (expectKey keys found) (expectKey keys found) := by
  unfold expectKey
  split
  · exact .throw_bind _ _ _
  · refine .bind (expectName_agrees hsimulates keys) fun index => ?_
    split
    · exact .throw_bind _ _ _
    · exact .pure _

omit [ByteInput ι] [ByteInput κ] hsimulates in
theorem counted_agrees {first : Attempt (State ι) UInt32} {second : Attempt (State κ) UInt32}
    (hagrees : Attempt.Agrees (Related related) first second) :
    Attempt.Agrees (Related related) (counted first) (counted second) :=
  .bind hagrees fun _ => .pure _

/-- Readers over inputs that answer alike answer every call alike. -/
theorem perform_agrees (call : Call) :
    Attempt.Agrees (Related related) (perform call) (perform call) := by
  cases call with
  | readTag => exact .bind (nextTag_agrees hsimulates id) fun _ => .pure _
  | peekTag => exact .bind (peekTag_agrees hsimulates) fun _ => .pure _
  | readBytes n => exact .bind (readBytes_agrees hsimulates n) fun _ => .pure _
  | copyBytes n => exact .bind (copyBytes_agrees hsimulates n) fun _ => .pure _
  | readText n => exact .bind (readText_agrees hsimulates n) fun _ => .pure _
  | skipBytes n => exact .bind (skipBytes_agrees hsimulates n) fun _ => .pure _
  | leave kind => exact .bind (leave_agrees kind) fun _ => .pure _
  | discard => exact .bind (discard_agrees hsimulates) fun _ => .pure _
  | atEnd => exact .bind (atEnd_agrees hsimulates) fun _ => .pure _
  | finish => exact .bind finish_agrees fun _ => .pure _
  | expectNil | expectBool | expectSingleBits | expectDoubleBits =>
      exact .bind (expect_agrees hsimulates _) fun _ => .pure _
  | expectUnsigned bits | expectSigned bits | expectUnsignedIn least greatest
  | expectSignedIn least greatest =>
      exact .bind (inRange_agrees (expect_agrees hsimulates _) _) fun _ => .pure _
  | expectSingle | expectDouble | expectExactSingle | expectExactDouble =>
      exact .bind (expectNumber_agrees hsimulates _) fun _ => .pure _
  | expectArray | expectMap | expectStr => exact counted_agrees (expect_agrees hsimulates _)
  | expectBin => exact counted_agrees (expectBin_agrees hsimulates)
  | expectArrayAtMost limit | expectMapAtMost limit | expectStrAtMost limit =>
      exact counted_agrees (atMost_agrees (expect_agrees hsimulates _) limit)
  | expectBinAtMost limit =>
      exact counted_agrees (atMost_agrees (expectBin_agrees hsimulates) limit)
  | expectArrayOf count | expectMapOf count =>
      exact .bind (exactly_agrees (expect_agrees hsimulates _) count) fun _ => .pure _
  | expectText => exact .bind (expectText_agrees hsimulates) fun _ => .pure _
  | expectSameText text => exact .bind (expectSameText_agrees hsimulates text) fun _ => .pure _
  | expectBinary => exact .bind (expectBinary_agrees hsimulates) fun _ => .pure _
  | expectExt => exact .bind (expect_agrees hsimulates _) fun _ => .pure _
  | expectName names => exact .bind (expectName_agrees hsimulates names) fun _ => .pure _
  | expectKey keys found => exact .bind (expectKey_agrees hsimulates keys found) fun _ => .pure _

end Inputs

end Reader.State

namespace Buffered

variable {input : Buffered} {bytes : Bytes}

theorem ahead_agrees {n : Nat} (hn : n ≤ Header.maxSize) :
    Attempt.Agrees Holds (ahead n) (Bytes.ahead n) := by
  intro input bytes hholds
  obtain ⟨after, hafter, ⟨-, hahead, hplain⟩ | ⟨error, hahead, hplain⟩⟩ := hholds.ahead hn
  · rw [hahead, hplain]
    exact ⟨rfl, hafter⟩
  · rw [hahead, hplain]
    exact ⟨rfl, hafter⟩

/-- A buffer in front of a steady source answers as the bytes do that it will deliver. -/
theorem simulates : ByteInput.Simulates Holds where
  size hholds := size_eq hholds
  ahead hn := ahead_agrees hn
  consume := by
    intro n input after bytes later found hn hholds hahead hother
    obtain ⟨filled, hfilled, ⟨hheld, hfill, hplain⟩ | ⟨error, hfill, -⟩⟩ := hholds.ahead hn
    · cases hfill.symm.trans hahead
      cases hplain.symm.trans hother
      exact hfilled.consume hheld
    · cases hfill.symm.trans hahead
  take := take_agrees
  skip := skip_agrees

end Buffered

namespace Reader.State

/-- Two readers that stand at the same place, one of them behind a buffer. -/
abbrev Alike : State Buffered → State Bytes → Prop :=
  Related Buffered.Holds

end Reader.State

namespace Value

open Reader.State

variable {σ τ α : Type}

theorem collect_agrees {related : σ → τ → Prop} {first : Attempt σ α} {second : Attempt τ α}
    (hagrees : Attempt.Agrees related first second) (n : Nat) (found : Array α) :
    Attempt.Agrees related (collect first n found) (collect second n found) := by
  induction n generalizing found with
  | zero => exact .pure _
  | succ n ih => exact .bind hagrees fun next => ih (found.push next)

theorem readPair_agrees {related : σ → τ → Prop} {first : Attempt σ Value}
    {second : Attempt τ Value} (hagrees : Attempt.Agrees related first second) :
    Attempt.Agrees related (readPair first) (readPair second) :=
  .bind hagrees fun _ => .bind hagrees fun _ => .pure _

variable {ι κ : Type} [ByteInput ι] [ByteInput κ] {related : ι → κ → Prop}

theorem readWithin_agrees (hsimulates : ByteInput.Simulates related) (fuel : Nat) :
    Attempt.Agrees (Related related) (readWithin fuel) (readWithin fuel) := by
  induction fuel with
  | zero => exact .throw _
  | succ fuel ih =>
      refine .bind (nextTag_agrees hsimulates id) fun tag => ?_
      cases tag with
      | str length =>
          exact .bind (readText_agrees hsimulates _) fun _ => .bind (leave_agrees _) fun _ =>
            .pure _
      | bin length =>
          exact .bind (copyBytes_agrees hsimulates _) fun _ => .bind (leave_agrees _) fun _ =>
            .pure _
      | ext type length =>
          exact .bind (copyBytes_agrees hsimulates _) fun _ => .bind (leave_agrees _) fun _ =>
            .pure _
      | array count =>
          exact .bind (collect_agrees ih _ _) fun _ => .bind (leave_agrees _) fun _ => .pure _
      | map pairs =>
          exact .bind (collect_agrees (readPair_agrees ih) _ _) fun _ =>
            .bind (leave_agrees _) fun _ => .pure _
      | _ => exact .pure _

theorem read_agrees (hsimulates : ByteInput.Simulates related) :
    Attempt.Agrees (Related related) read read := by
  refine .get fun state other hrelated => ?_
  have hsize : state.size = other.size := hsimulates.size hrelated.input
  rw [hsize]
  exact readWithin_agrees hsimulates _

end Value
end MessagePack
