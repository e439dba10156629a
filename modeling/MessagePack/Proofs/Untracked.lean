import MessagePack.Proofs.Calls
import MessagePack.Proofs.Cursor

/-!
Tracking is only a check. Calls that it lets pass come to the same without it: a writer leaves the
same bytes in its sink, and a reader gives the same replies and leaves the same bytes unread.
-/

namespace MessagePack

namespace Attempt

variable {σ ρ α β : Type} {forget : σ → σ}

/-- Where the attempt succeeds, it does not need what `forget` takes out of the state. -/
def Forgets (forget : σ → σ) (attempt : Attempt σ α) : Prop :=
  ∀ state value after, attempt state = (.ok value, after) →
    attempt (forget state) = (.ok value, forget after)

namespace Forgets

theorem pure (value : α) : Forgets forget (Pure.pure value : Attempt σ α) := by
  intro state result after hpure
  cases hpure
  rfl

theorem throw (error : Error) : Forgets forget (throwThe Error error : Attempt σ α) := by
  intro state value after hthrow
  cases hthrow

theorem throw_bind (error : Error) (next : α → Attempt σ β) :
    Forgets forget (throwThe Error error >>= next) := by
  intro state value after hthrow
  cases hthrow

theorem lift (outcome : Except Error α) :
    Forgets forget (Attempt.lift outcome : Attempt σ α) := by
  intro state value after hlift
  obtain ⟨rfl, rfl⟩ := lift_eq_ok hlift
  rfl

theorem bind {attempt : Attempt σ α} {next : α → Attempt σ β} (hattempt : Forgets forget attempt)
    (hnext : ∀ value, Forgets forget (next value)) : Forgets forget (attempt >>= next) := by
  intro state result after hbind
  obtain ⟨value, middle, hfirst, hrest⟩ := bind_eq_ok hbind
  rw [bind_of_ok (hattempt state value middle hfirst)]
  exact hnext value middle result after hrest

/-- What is looked at must be there in both states. -/
theorem get {next : σ → Attempt σ α} (hsame : ∀ state, next (forget state) = next state)
    (hnext : ∀ state, Forgets forget (next state)) : Forgets forget (MonadState.get >>= next) := by
  intro state value after hget
  rw [get_bind, hsame]
  exact hnext state state value after hget

theorem modify {change : σ → σ}
    (hcommutes : ∀ state, change (forget state) = forget (change state)) :
    Forgets forget (modify change : Attempt σ PUnit) := by
  intro state value after hmodify
  cases hmodify
  exact congrArg _ (hcommutes state)

theorem within {part : σ → ρ} {replace : ρ → σ → σ} (attempt : Attempt ρ α)
    (hpart : ∀ state, part (forget state) = part state)
    (hreplace : ∀ changed state, replace changed (forget state) = forget (replace changed state)) :
    Forgets forget (attempt.within part replace) := by
  intro state value after hwithin
  simp only [Attempt.within, hpart, hreplace] at hwithin ⊢
  obtain ⟨hresult, hafter⟩ := Prod.mk.inj hwithin
  exact Prod.ext hresult (congrArg forget hafter)

/-- The part may lose something too, as long as the operation does not need it. -/
theorem update {part : σ → ρ} {replace : ρ → σ → σ} {operation : ρ → Except Error ρ}
    (lose : ρ → ρ) (hpart : ∀ state, part (forget state) = lose (part state))
    (hreplace : ∀ changed state,
      replace (lose changed) (forget state) = forget (replace changed state))
    (hoperation : ∀ before changed, operation before = .ok changed →
      operation (lose before) = .ok (lose changed)) :
    Forgets forget (Attempt.update part replace operation) := by
  intro state value after hupdate
  cases hchanged : operation (part state) with
  | error error =>
      rw [update_of_error hchanged] at hupdate
      cases hupdate
  | ok changed =>
      rw [update_of_ok hchanged] at hupdate
      cases hupdate
      rw [update_of_ok (hpart state ▸ hoperation _ _ hchanged), hreplace]

end Forgets
end Attempt

namespace Latch

variable {σ α : Type} {forget : σ → σ}

/-- A latch whose state is changed, whether it has failed or not. -/
def map (change : σ → σ) (latch : Latch σ) : Latch σ :=
  { latch with state := change latch.state }

theorem call_forgets {attempt : Attempt σ α} (hattempt : Attempt.Forgets forget attempt) :
    Attempt.Forgets (map forget) (call attempt) := by
  intro latch value after hcall
  obtain ⟨hnone, hafter, hstate⟩ := call_eq_ok hcall
  obtain ⟨state, error?⟩ := latch
  obtain ⟨last, found?⟩ := after
  obtain rfl : error? = none := hnone
  obtain rfl : found? = none := hafter
  exact call_of_ok (hattempt state value last hstate)

end Latch

namespace Nesting

/-- No frames are kept, and none are asked for. -/
def untracked (nesting : Nesting) : Nesting :=
  { nesting with frames := [], enabled := false }

/-- An operation that accepts everything where no frames are kept. -/
def OnlyChecks (operation : Nesting → Except Error Nesting) : Prop :=
  ∀ nesting changed, operation nesting = .ok changed →
    operation nesting.untracked = .ok changed.untracked

variable {operation : Nesting → Except Error Nesting}

theorem OnlyChecks.of_kept
    (hoff : ∀ nesting : Nesting, operation nesting.untracked = .ok nesting.untracked)
    (hkept : ∀ nesting changed, operation nesting = .ok changed →
      changed.untracked = nesting.untracked) : OnlyChecks operation := by
  intro nesting changed hoperation
  rw [hkept nesting changed hoperation]
  exact hoff nesting

theorem push_onlyChecks (frame : Frame) : OnlyChecks (push frame) := by
  refine .of_kept (fun _ => rfl) fun nesting changed hpush => ?_
  unfold push at hpush
  repeat' split at hpush
  all_goals cases hpush
  all_goals rfl

theorem enterTag_onlyChecks (tag : Tag) : OnlyChecks (enterTag tag) := by
  intro nesting changed henter
  unfold enterTag at henter ⊢
  cases hopens : tag.opens? with
  | none =>
      rw [hopens] at henter
      cases henter
      rfl
  | some opened =>
      rw [hopens] at henter
      exact push_onlyChecks _ nesting changed henter

theorem element_onlyChecks : OnlyChecks element := by
  refine .of_kept (fun _ => rfl) fun nesting changed helement => ?_
  unfold element at helement
  repeat' split at helement
  all_goals cases helement
  all_goals rfl

theorem bytes_onlyChecks (n : Nat) : OnlyChecks (bytes n) := by
  refine .of_kept (fun _ => rfl) fun nesting changed hbytes => ?_
  unfold bytes at hbytes
  repeat' split at hbytes
  all_goals cases hbytes
  all_goals rfl

theorem leave_onlyChecks (kind : Compound) : OnlyChecks (leave kind) := by
  refine .of_kept (fun _ => rfl) fun nesting changed hleave => ?_
  unfold leave at hleave
  repeat' split at hleave
  all_goals cases hleave
  all_goals rfl

end Nesting

/-! Writing. -/

namespace Writer
namespace State

open Attempt (Forgets)

def untracked (state : State) : State :=
  { state with nesting := state.nesting.untracked }

theorem track_forgets {operation : Nesting → Except Error Nesting}
    (honly : Nesting.OnlyChecks operation) : Forgets untracked (track operation) :=
  .update Nesting.untracked (fun _ => rfl) (fun _ _ => rfl) honly

theorem build_forgets (operation : Builder → Except Error Builder) :
    Forgets untracked (build operation) :=
  .update id (fun _ => rfl) (fun _ _ => rfl) fun _ _ hoperation => hoperation

theorem onOutput_forgets (attempt : Attempt Output Unit) : Forgets untracked (onOutput attempt) :=
  .within attempt (fun _ => rfl) fun _ _ => rfl

theorem emit_forgets (content : Bytes) : Forgets untracked (emit content) := by
  refine .get (fun _ => rfl) fun state => ?_
  split
  · exact build_forgets _
  · exact onOutput_forgets _

theorem tag_forgets (value : Tag) : Forgets untracked (tag value) := by
  refine .get (fun _ => rfl) fun state => .bind (.lift _) fun header =>
    .bind (track_forgets Nesting.element_onlyChecks) fun _ =>
    .bind (track_forgets (Nesting.enterTag_onlyChecks value)) fun _ =>
    .bind (build_forgets _) fun _ => ?_
  split
  · exact .bind (build_forgets _) fun _ => emit_forgets header
  · exact emit_forgets header

theorem bytes_forgets (content : Bytes) : Forgets untracked (bytes content) :=
  .bind (track_forgets (Nesting.bytes_onlyChecks _)) fun _ => emit_forgets content

theorem finishCompound_forgets (kind : Compound) : Forgets untracked (finishCompound kind) :=
  .bind (build_forgets _) fun _ => track_forgets (Nesting.leave_onlyChecks kind)

theorem payload_forgets (header : UInt32 → Tag) (kind : Compound) (content : Bytes) :
    Forgets untracked (payload header kind content) := by
  have hlength : Forgets untracked (payloadLength content) := by
    unfold payloadLength
    split
    · exact .pure _
    · exact .throw _
  exact .bind hlength fun length => .bind (tag_forgets _) fun _ => .bind (bytes_forgets content)
    fun _ => finishCompound_forgets kind

theorem object_forgets (encoded : Bytes) : Forgets untracked (object encoded) :=
  .bind (track_forgets Nesting.element_onlyChecks) fun _ => .bind (build_forgets _) fun _ =>
    emit_forgets encoded

theorem beginBuild_forgets (kind : Compound) : Forgets untracked (beginBuild kind) :=
  .get (fun _ => rfl) fun _ => .bind (.lift _) fun _ =>
    .bind (track_forgets Nesting.element_onlyChecks) fun _ =>
    .bind (track_forgets (Nesting.push_onlyChecks _)) fun _ => build_forgets _

theorem writePieces_forgets (pieces : List Bytes) : Forgets untracked (writePieces pieces) := by
  induction pieces with
  | nil => exact .pure _
  | cons piece pieces ih => exact .bind (onOutput_forgets _) fun _ => ih

theorem completeBuild_forgets (kind : Compound) : Forgets untracked (completeBuild kind) := by
  refine .get (fun _ => rfl) fun _ => .bind (.lift _) fun _ =>
    .bind (track_forgets (Nesting.leave_onlyChecks kind)) fun _ =>
    .bind (build_forgets _) fun _ => .get (fun _ => rfl) fun state => ?_
  split
  · exact .get (fun _ => rfl) fun _ => .bind (writePieces_forgets _) fun _ => build_forgets _
  · exact .pure _

theorem flush_forgets : Forgets untracked flush :=
  onOutput_forgets _

/-- Where no frames are kept, none are left open. -/
theorem finish_forgets : Forgets untracked finish := by
  intro state value after hfinish
  rw [finish, Attempt.get_bind] at hfinish ⊢
  have hactive : state.untracked.builder.isActive = state.builder.isActive := rfl
  rw [hactive]
  split at hfinish
  · cases hfinish
  · next hidle =>
      rw [if_neg hidle]
      obtain ⟨_, middle, hclosed, hflush⟩ := Attempt.bind_eq_ok hfinish
      obtain ⟨-, rfl⟩ := Attempt.lift_eq_ok hclosed
      exact flush_forgets middle value after hflush

theorem perform_forgets (call : Call) : Forgets untracked (perform call) := by
  cases call with
  | tag value => exact tag_forgets value
  | bytes content => exact bytes_forgets content
  | finishCompound kind => exact finishCompound_forgets kind
  | str text => exact payload_forgets _ _ _
  | bin content => exact payload_forgets _ _ _
  | ext type content => exact payload_forgets _ _ _
  | object encoded => exact object_forgets encoded
  | beginBuild kind => exact beginBuild_forgets kind
  | completeBuild kind => exact completeBuild_forgets kind
  | flush => exact flush_forgets
  | finish => exact finish_forgets

end State

def untracked (writer : Writer) : Writer :=
  writer.map State.untracked

theorem create_untracked {config : Config} {sink : Sink} {writer : Writer}
    (hcreate : create config sink = .ok writer) :
    create { config with writeTracking := false } sink = .ok writer.untracked := by
  obtain ⟨_, hvalid, hcreate⟩ := bind_eq_ok hcreate
  obtain ⟨_, hfeature, hcreate⟩ := bind_eq_ok hcreate
  cases hcreate
  have hsame : Config.validate { config with writeTracking := false } = config.validate := rfl
  rw [create, hsame, hvalid]
  simp only [bind, Except.bind, hfeature]
  rfl

theorem run_forgets (calls : List Call) : Attempt.Forgets untracked (run calls) := by
  induction calls with
  | nil => exact .pure _
  | cons call calls ih =>
      exact .bind (Latch.call_forgets (State.perform_forgets call)) fun _ => ih

end Writer

/-! Reading. -/

namespace Reader

variable {ι : Type}

namespace State

open Attempt (Forgets)

def untracked (state : State ι) : State ι :=
  { state with nesting := state.nesting.untracked }

theorem track_forgets {operation : Nesting → Except Error Nesting}
    (honly : Nesting.OnlyChecks operation) :
    Forgets (@untracked ι) (track operation) :=
  .update Nesting.untracked (fun _ => rfl) (fun _ _ => rfl) honly

theorem onInput_forgets (attempt : Attempt ι α) : Forgets untracked (onInput attempt) :=
  .within attempt (fun _ => rfl) fun _ _ => rfl

theorem leave_forgets (kind : Compound) : Forgets (@untracked ι) (leave kind) :=
  track_forgets (Nesting.leave_onlyChecks kind)

/-- Where no frames are kept, none are left open. -/
theorem finish_forgets : Forgets (@untracked ι) finish := by
  intro state value after hfinish
  obtain ⟨-, rfl⟩ := Attempt.lift_eq_ok hfinish
  rfl

theorem unwind_forgets (levels : List (Compound × Nat)) :
    Forgets (@untracked ι) (unwind levels) := by
  induction levels with
  | nil => exact .pure _
  | cons level outer ih =>
      rw [unwind]
      split
      · exact .bind (leave_forgets _) fun _ => ih
      · exact .pure _

theorem inRange_forgets {word : Attempt (State ι) α} (hword : Forgets untracked word)
    (accepts : α → Bool) : Forgets untracked (inRange accepts word) := by
  refine .bind hword fun found => ?_
  split
  · exact .throw_bind _ _
  · exact .pure _

theorem atMost_forgets {count : Attempt (State ι) UInt32} (hcount : Forgets untracked count)
    (limit : UInt32) : Forgets untracked (atMost limit count) := by
  refine .bind hcount fun found => ?_
  split
  · exact .throw_bind _ _
  · exact .pure _

theorem exactly_forgets {count : Attempt (State ι) UInt32} (hcount : Forgets untracked count)
    (wanted : UInt32) : Forgets untracked (exactly wanted count) := by
  refine .bind hcount fun found => ?_
  split
  · exact .throw _
  · exact .pure _

theorem counted_forgets {count : Attempt (State ι) UInt32} (hcount : Forgets untracked count) :
    Forgets untracked (counted count) :=
  .bind hcount fun _ => .pure _

variable [ByteInput ι]

theorem header_forgets : Forgets (@untracked ι) header :=
  .bind (onInput_forgets _) fun _ => .bind (onInput_forgets _) fun _ =>
    .get (fun _ => rfl) fun _ => .bind (.lift _) fun _ => .pure _

theorem peekTag_forgets : Forgets (@untracked ι) peekTag :=
  .bind header_forgets fun _ => .pure _

theorem nextTag_forgets (view : Tag → Tag) : Forgets (@untracked ι) (nextTag view) :=
  .bind header_forgets fun _ => .bind (track_forgets Nesting.element_onlyChecks) fun _ =>
    .bind (track_forgets (Nesting.enterTag_onlyChecks _)) fun _ =>
    .bind (.modify fun _ => rfl) fun _ => .pure _

theorem readBytes_forgets (n : Nat) : Forgets (@untracked ι) (readBytes n) :=
  .bind (track_forgets (Nesting.bytes_onlyChecks n)) fun _ => onInput_forgets _

theorem skipBytes_forgets (n : Nat) : Forgets (@untracked ι) (skipBytes n) :=
  .bind (track_forgets (Nesting.bytes_onlyChecks n)) fun _ => onInput_forgets _

theorem copyBytes_forgets (n : Nat) : Forgets (@untracked ι) (copyBytes n) := by
  refine .get (fun _ => rfl) fun state => ?_
  by_cases hlarge : state.maxAlloc < n
  · simp only [hlarge, if_true]
    exact .throw_bind _ _
  · simp only [hlarge, if_false]
    exact readBytes_forgets n

theorem readText_forgets (n : Nat) : Forgets (@untracked ι) (readText n) := by
  refine .bind (copyBytes_forgets n) fun content => ?_
  split
  · exact .pure _
  · exact .throw _

theorem atEnd_forgets : Forgets (@untracked ι) atEnd := by
  intro state value after hend
  rcases hahead : ByteInput.ahead 1 state.input with ⟨result, input⟩
  simp only [atEnd, onInput, Attempt.within, untracked, hahead] at hend ⊢
  cases result with
  | ok bytes => cases hend; rfl
  | error error =>
      cases error with
      | truncated needed available =>
          cases hend
          rfl
      | _ => cases hend

/-! Discarding a value. -/

theorem passOver_forgets (tag : Tag) : Forgets (@untracked ι) (passOver tag) := by
  unfold passOver
  split
  · exact .pure _
  · split
    · exact .bind (skipBytes_forgets _) fun _ => leave_forgets _
    · exact leave_forgets _

theorem discardWithin_forgets (levels : List (Compound × Nat)) :
    Forgets (@untracked ι) (discardWithin levels) := by
  intro state value after hdiscard
  have hread : Forgets (@untracked ι) readTag := nextTag_forgets id
  have hpass : ∀ tag levels, Forgets (@untracked ι) (do passOver tag; unwind levels) :=
    fun tag levels => .bind (passOver_forgets tag) fun _ => unwind_forgets levels
  fun_induction discardWithin levels state with
  | case1 => cases hdiscard
  | case2 levels state tag middle hstate level howes ih =>
      rw [discardWithin_eq, Attempt.bind_of_ok (hread state tag middle hstate)]
      simp only [howes]
      exact ih hdiscard
  | case3 => cases hdiscard
  | case4 levels state tag middle hstate howes last hpassed =>
      rw [discardWithin_eq, Attempt.bind_of_ok (hread state tag middle hstate)]
      simp only [howes]
      rw [Attempt.bind_of_ok (hpass tag levels middle [] last hpassed)]
      cases hdiscard
      rfl
  | case5 levels state tag middle hstate howes level outer last hpassed ih =>
      rw [discardWithin_eq, Attempt.bind_of_ok (hread state tag middle hstate)]
      simp only [howes]
      rw [Attempt.bind_of_ok (hpass tag levels middle (level :: outer) last hpassed)]
      exact ih hdiscard

/-! Typed reads. -/

theorem expect_forgets (view : Tag → Except Error α) :
    Forgets (@untracked ι) (expect view) :=
  .bind (nextTag_forgets id) fun _ => .lift _

theorem expectNumber_forgets (view : Tag → Except Error α) :
    Forgets (@untracked ι) (expectNumber view) :=
  .get (fun _ => rfl) fun _ => .bind (.lift _) fun _ => expect_forgets view

theorem expectBin_forgets : Forgets (@untracked ι) expectBin := by
  refine .get (fun _ => rfl) fun state => .bind (nextTag_forgets _) fun tag => ?_
  split
  · exact .pure _
  · exact .lift _

theorem expectText_forgets : Forgets (@untracked ι) expectText :=
  .bind (expect_forgets _) fun _ => .bind (readText_forgets _) fun _ =>
    .bind (leave_forgets _) fun _ => .pure _

theorem expectBinary_forgets : Forgets (@untracked ι) expectBinary :=
  .bind expectBin_forgets fun _ => .bind (copyBytes_forgets _) fun _ =>
    .bind (leave_forgets _) fun _ => .pure _

theorem expectSameText_forgets (text : String) :
    Forgets (@untracked ι) (expectSameText text) := by
  refine .bind (expect_forgets _) fun length => ?_
  split
  · exact .throw_bind _ _
  · refine .bind (copyBytes_forgets _) fun content => .bind (leave_forgets _) fun _ => ?_
    split
    · exact .throw _
    · exact .pure _

theorem expectName_forgets (names : List String) :
    Forgets (@untracked ι) (expectName names) := by
  refine .bind (expect_forgets _) fun length => ?_
  split
  · refine .bind (copyBytes_forgets _) fun _ => .bind (.pure _) fun index? =>
      .bind (leave_forgets _) fun _ => ?_
    cases index? with
    | none => exact .throw _
    | some index => exact .pure _
  · refine .bind (skipBytes_forgets _) fun _ => .bind (.pure _) fun index? =>
      .bind (leave_forgets _) fun _ => ?_
    cases index? with
    | none => exact .throw _
    | some index => exact .pure _

theorem expectKey_forgets (keys : List String) (found : List Bool) :
    Forgets (@untracked ι) (expectKey keys found) := by
  unfold expectKey
  split
  · exact .throw_bind _ _
  · refine .bind (expectName_forgets keys) fun index => ?_
    split
    · exact .throw_bind _ _
    · exact .pure _

theorem perform_forgets (call : Call) : Forgets (@untracked ι) (perform call) := by
  cases call with
  | readTag => exact .bind (nextTag_forgets id) fun _ => .pure _
  | peekTag => exact .bind peekTag_forgets fun _ => .pure _
  | readBytes n => exact .bind (readBytes_forgets n) fun _ => .pure _
  | copyBytes n => exact .bind (copyBytes_forgets n) fun _ => .pure _
  | readText n => exact .bind (readText_forgets n) fun _ => .pure _
  | skipBytes n => exact .bind (skipBytes_forgets n) fun _ => .pure _
  | leave kind => exact .bind (leave_forgets kind) fun _ => .pure _
  | discard => exact .bind (discardWithin_forgets []) fun _ => .pure _
  | atEnd => exact .bind atEnd_forgets fun _ => .pure _
  | finish => exact .bind finish_forgets fun _ => .pure _
  | expectNil | expectBool | expectSingleBits | expectDoubleBits =>
      exact .bind (expect_forgets _) fun _ => .pure _
  | expectUnsigned bits | expectSigned bits | expectUnsignedIn least greatest
  | expectSignedIn least greatest =>
      exact .bind (inRange_forgets (expect_forgets _) _) fun _ => .pure _
  | expectSingle | expectDouble | expectExactSingle | expectExactDouble =>
      exact .bind (expectNumber_forgets _) fun _ => .pure _
  | expectArray | expectMap | expectStr => exact counted_forgets (expect_forgets _)
  | expectBin => exact counted_forgets expectBin_forgets
  | expectArrayAtMost limit | expectMapAtMost limit | expectStrAtMost limit =>
      exact counted_forgets (atMost_forgets (expect_forgets _) limit)
  | expectBinAtMost limit => exact counted_forgets (atMost_forgets expectBin_forgets limit)
  | expectArrayOf count | expectMapOf count =>
      exact .bind (exactly_forgets (expect_forgets _) count) fun _ => .pure _
  | expectText => exact .bind expectText_forgets fun _ => .pure _
  | expectSameText text => exact .bind (expectSameText_forgets text) fun _ => .pure _
  | expectBinary => exact .bind expectBinary_forgets fun _ => .pure _
  | expectExt => exact .bind (expect_forgets _) fun _ => .pure _
  | expectName names => exact .bind (expectName_forgets names) fun _ => .pure _
  | expectKey keys found => exact .bind (expectKey_forgets keys found) fun _ => .pure _

end State

def untracked (reader : Reader ι) : Reader ι :=
  reader.map State.untracked

theorem ofInput_untracked {config : Config} {input : ι} {reader : Reader ι}
    (hreader : ofInput config input = .ok reader) :
    ofInput { config with readTracking := false } input = .ok reader.untracked := by
  obtain ⟨_, hvalid, hreader⟩ := bind_eq_ok hreader
  obtain ⟨_, hfeature, hreader⟩ := bind_eq_ok hreader
  cases hreader
  have hsame : Config.validate { config with readTracking := false } = config.validate := rfl
  rw [ofInput, hsame, hvalid]
  simp only [bind, Except.bind, hfeature]
  rfl

theorem run_untracked [ByteInput ι] {reader after : Reader ι} {calls : List Call}
    {replies : List Reply} (hrun : reader.run calls = (replies.map .ok, after)) :
    reader.untracked.run calls = (replies.map .ok, after.untracked) := by
  induction calls generalizing reader replies with
  | nil =>
      cases replies with
      | nil => cases hrun; rfl
      | cons reply replies => cases hrun
  | cons call calls ih =>
      rw [run_cons] at hrun
      obtain ⟨hreplies, hafter⟩ := Prod.mk.inj hrun
      obtain ⟨reply, rest, rfl, hreply, hrest⟩ := List.map_eq_cons_iff.mp hreplies.symm
      have hperform : perform call reader = (.ok reply, (perform call reader).2) :=
        Prod.ext hreply.symm rfl
      have huntracked : perform call reader.untracked =
          (.ok reply, untracked (perform call reader).2) :=
        Latch.call_forgets (State.perform_forgets call) reader reply _ hperform
      rw [run_cons, huntracked, ih (Prod.ext hrest.symm hafter)]
      rfl

end Reader

/-- What goes well with tracking goes the same way without it, over any sink and any input. Only
the nesting, and with it the depth, is not the same. -/
theorem tracking_onlyChecks (config : Config) :
    (∀ (sink : Sink) (calls : List Writer.Call) (writer after : Writer),
      Writer.create config sink = .ok writer → Writer.run calls writer = (.ok (), after) →
      ∃ other later, Writer.create { config with writeTracking := false } sink = .ok other ∧
        Writer.run calls other = (.ok (), later) ∧ later.sink = after.sink ∧
        { later.state with nesting := after.state.nesting } = after.state) ∧
    ∀ (ι : Type) [ByteInput ι] (input : ι) (calls : List Reader.Call) (reader after : Reader ι)
      (replies : List Reader.Reply), Reader.ofInput config input = .ok reader →
      reader.run calls = (replies.map .ok, after) →
      ∃ other later, Reader.ofInput { config with readTracking := false } input = .ok other ∧
        other.run calls = (replies.map .ok, later) ∧ later.state.input = after.state.input ∧
        { later.state with nesting := after.state.nesting } = after.state := by
  constructor
  · intro sink calls writer after hcreate hrun
    exact ⟨writer.untracked, after.untracked, Writer.create_untracked hcreate,
      Writer.run_forgets calls writer () after hrun, rfl, rfl⟩
  · intro ι _ input calls reader after replies hreader hrun
    exact ⟨reader.untracked, after.untracked, Reader.ofInput_untracked hreader,
      Reader.run_untracked hrun, rfl, rfl⟩

/-- A build that holds a byte, and a reader that is given what it writes one byte at a time. -/
theorem tracking_onlyChecks_build :
    (∃ other later, Writer.create { writeTracking := false } {} = .ok other ∧
      Writer.run [.beginBuild .array, .bin [7], .flush, .completeBuild .array, .finish] other =
        (.ok (), later) ∧
      later.sink.bytes = [0x91, 0xc4, 1, 7]) ∧
    ∃ other later, Reader.create { readTracking := false } {
        deliveries := [.chunk [0x91, 0xc4, 1, 7, 0xc0]]
        maxRead? := some 1 } = .ok other ∧
      other.run [.expectArray, .expectBinary, .leave .array, .finish] =
        ([.ok (.count 1), .ok (.bytes [7]), .ok .done, .ok .done], later) ∧
      later.cursor.state.input = [0xc0] := by
  constructor
  · have hcreate : Writer.create {} {} = .ok _ := rfl
    obtain ⟨-, hshows⟩ := Draft.Shows.create (.plain #[]) hcreate
    have hdraft : Draft.run {}
        ([.beginBuild .array, .bin [7], .flush, .completeBuild .array] ++ [.finish])
        (Draft.initial {} {}) = (.ok (), { nesting := {}, text := [0x91, 0xc4, 1, 7] }) := by
      simp only [Draft.run, List.cons_append, List.nil_append]
      rfl
    obtain ⟨last, hrun, hlast⟩ := hshows.run_ok hdraft
    obtain ⟨other, later, hother, hlater, hsink, -⟩ :=
      (tracking_onlyChecks {}).1 {} _ _ _ hcreate hrun
    refine ⟨other, later, hother, hlater, ?_⟩
    rw [hsink]
    have hbytes := Writer.State.bytes_of_run (Latch.call_eq_ok (Writer.run_eq _ _ ▸ hrun)).2.2
    exact hbytes.trans hlast.text
  · have hsteady : Source.Steady {
        deliveries := [.chunk [0x91, 0xc4, 1, 7, 0xc0]]
        maxRead? := some 1 } := by
      refine ⟨fun delivery hmember => ?_, by decide⟩
      rw [List.mem_singleton.mp hmember]
      trivial
    rcases Reader.ofInput_agrees {} (hsteady.holds 4096) with
      ⟨error, hcreate, -⟩ | ⟨reader, plain, hcreate, hplain, hfollows, -⟩
    · cases hcreate
    · cases hplain
      obtain ⟨hreplies, hlast⟩ :=
        Reader.Follows.run_eq hfollows [.expectArray, .expectBinary, .leave .array, .finish]
      have hrun : reader.run [.expectArray, .expectBinary, .leave .array, .finish] =
          ([.count 1, .bytes [7], .done, .done].map .ok,
            (reader.run [.expectArray, .expectBinary, .leave .array, .finish]).2) :=
        Prod.ext hreplies rfl
      obtain ⟨other, later, hother, hlater, hinput, -⟩ :=
        (tracking_onlyChecks {}).2 _ _ _ _ _ _ hcreate hrun
      refine ⟨other, later, hother, hlater, ?_⟩
      have hcursor := congrArg (fun plain => plain.state.input) hlast.cursor_eq
      simp only [Reader.cursor, hinput] at hcursor ⊢
      exact hcursor

end MessagePack
