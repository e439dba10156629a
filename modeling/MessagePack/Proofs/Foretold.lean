import MessagePack.Proofs.Tracked

/-!
What calls write, given the calls behind them. The header of a build is written where the build
begins, and counts the values of calls that are still to come.
-/

namespace MessagePack
namespace Writer

/-- What a call does to the compounds that are open. -/
inductive Call.Effect where
  | value
  | opening
  | closing
  | none

/-- A str, bin or ext that is written at once is closed at once. -/
def Call.effect : Call → Effect
  | .tag value => if value.isCompound then .opening else .value
  | .str _ | .bin _ | .ext _ _ | .object _ => .value
  | .beginBuild _ => .opening
  | .finishCompound _ | .completeBuild _ => .closing
  | .bytes _ | .flush | .finish => .none

/-- Values that some calls write directly in a compound, up to its end, while so many compounds
are open inside it. -/
def directCount : Nat → List Call → Nat
  | _, [] => 0
  | level, call :: calls =>
      match call.effect, level with
      | .value, 0 => directCount 0 calls + 1
      | .value, level + 1 => directCount (level + 1) calls
      | .opening, 0 => directCount 1 calls + 1
      | .opening, level + 1 => directCount (level + 2) calls
      | .closing, 0 => 0
      | .closing, level + 1 => directCount level calls
      | .none, level => directCount level calls

section

variable (call : Call) (calls : List Call)

theorem directCount_value (heffect : call.effect = .value) :
    directCount 0 (call :: calls) = directCount 0 calls + 1 ∧
      ∀ level, directCount (level + 1) (call :: calls) = directCount (level + 1) calls := by
  simp [directCount, heffect]

theorem directCount_opening (heffect : call.effect = .opening) :
    directCount 0 (call :: calls) = directCount 1 calls + 1 ∧
      ∀ level, directCount (level + 1) (call :: calls) = directCount (level + 2) calls := by
  simp [directCount, heffect]

theorem directCount_closing (heffect : call.effect = .closing) :
    directCount 0 (call :: calls) = 0 ∧
      ∀ level, directCount (level + 1) (call :: calls) = directCount level calls := by
  simp [directCount, heffect]

variable {call calls}

theorem directCount_none (heffect : call.effect = .none) (level : Nat) :
    directCount level (call :: calls) = directCount level calls := by
  simp [directCount, heffect]

/-- A payload between its header and its end counts like one value. -/
theorem directCount_payload {value : Tag} {payload : Bytes} {kind : Compound}
    (hcompound : value.isCompound = true) (heffect : call.effect = .value) (level : Nat) :
    directCount level (.tag value :: .bytes payload :: .finishCompound kind :: calls) =
      directCount level (call :: calls) := by
  have hopening : (Call.tag value).effect = .opening := if_pos hcompound
  cases level with
  | zero =>
      rw [(directCount_opening _ _ hopening).1, directCount_none rfl,
        (directCount_closing _ _ rfl).2, (directCount_value _ _ heffect).1]
  | succ level =>
      rw [(directCount_opening _ _ hopening).2, directCount_none rfl,
        (directCount_closing _ _ rfl).2, (directCount_value _ _ heffect).2]

end

/-- Calls that can be told from what they write; the elements of a ready-made value cannot. -/
def Call.Replayable : Call → Prop
  | .object _ => False
  | .beginBuild kind => kind.holdsBytes = false
  | _ => True

/-- What a call adds to the text, in front of what is behind it. -/
inductive Call.Writes (options : TagOptions) (later : List Call) : Call → Bytes → Prop
  | tag {value : Tag} {header : Bytes} (hencode : Header.encode options value = .ok header) :
      Writes options later (.tag value) header
  | bytes (payload : Bytes) : Writes options later (.bytes payload) payload
  | str {text : String} {header : Bytes} (hlength : (utf8 text).length < UInt32.size)
      (hencode : Header.encode options (.str (UInt32.ofNat (utf8 text).length)) = .ok header) :
      Writes options later (.str text) (header ++ utf8 text)
  | bin {content header : Bytes} (hlength : content.length < UInt32.size)
      (hencode : Header.encode options (.bin (UInt32.ofNat content.length)) = .ok header) :
      Writes options later (.bin content) (header ++ content)
  | ext {type : Int8} {content header : Bytes} (hlength : content.length < UInt32.size)
      (hencode : Header.encode options (.ext type (UInt32.ofNat content.length)) = .ok header) :
      Writes options later (.ext type content) (header ++ content)
  | beginBuild {kind : Compound} {header : Bytes} (hkind : kind.holdsBytes = false)
      (hheads : Builder.Heads options kind (directCount 0 later) header) :
      Writes options later (.beginBuild kind) header
  | finishCompound (kind : Compound) : Writes options later (.finishCompound kind) []
  | completeBuild (kind : Compound) : Writes options later (.completeBuild kind) []
  | flush : Writes options later .flush []
  | finish : Writes options later .finish []

/-- The text that some calls write if nothing is left open in the end. -/
inductive Foretold (options : TagOptions) : List Call → Bytes → Prop
  | none : Foretold options [] []
  | call {call : Call} {later : List Call} {chunk text : Bytes}
      (hcall : call.Writes options later chunk) (hlater : Foretold options later text) :
      Foretold options (call :: later) (chunk ++ text)

end Writer

open Writer (directCount Foretold)

/-- A text and the layers behind it, each with the header it will have when some calls have been
made. So many compounds are open inside the innermost. -/
inductive Unfolded (options : TagOptions) (calls : List Writer.Call) (text : Bytes) :
    Nat → List Layer → Bytes → Prop
  | none (level : Nat) : Unfolded options calls text level [] text
  | layer {level : Nat} {layer : Layer} {layers : List Layer} {before header : Bytes}
      (houter : Unfolded options calls text (level + layer.nested + 1) layers before)
      (hheads : Builder.Heads options layer.kind
        (layer.count + directCount (level + layer.nested) calls) header) :
      Unfolded options calls text level (layer :: layers) (before ++ header ++ layer.text)

namespace Draft

variable {config : Config} {options : TagOptions} {calls later : List Writer.Call}
  {call : Writer.Call} {draft after : Draft} {level : Nat} {whole : Bytes} {kind : Compound}

/-- All that is written so far, if these are the calls to come. -/
def Foresees (options : TagOptions) (calls : List Writer.Call) (level : Nat) (draft : Draft)
    (whole : Bytes) : Prop :=
  Unfolded options calls draft.text level draft.layers whole

namespace Foresees

theorem append {bytes : Bytes}
    (hforesees : (draft.append bytes).Foresees options calls level whole) :
    ∃ before, draft.Foresees options calls level before ∧ whole = before ++ bytes := by
  obtain ⟨nesting, layers, text⟩ := draft
  cases layers with
  | nil =>
      cases hforesees
      exact ⟨text, .none level, rfl⟩
  | cons top outer =>
      cases hforesees with
      | layer houter hheads => exact ⟨_, .layer houter hheads, (List.append_assoc _ _ _).symm⟩

/-- Nothing is lost where the counts to come are the same. -/
theorem shift {text : Bytes} {layers : List Layer} {first second : Nat}
    (hsame : ∀ more, directCount (first + more) later = directCount (second + more) calls)
    (hunfolded : Unfolded options later text first layers whole) :
    Unfolded options calls text second layers whole := by
  induction hunfolded generalizing second with
  | none first => exact .none second
  | @layer first layer layers before header houter hheads ih =>
      refine .layer (ih fun more => ?_) ?_
      · have hmore := hsame (layer.nested + 1 + more)
        simp only [← Nat.add_assoc] at hmore
        exact hmore
      · rw [← hsame layer.nested]
        exact hheads

theorem openCounted {layers : List Layer} {text : Bytes} :
    Unfolded options calls text level (Layer.openCounted layers) whole ↔
      Unfolded options calls text (level + 1) layers whole := by
  cases layers with
  | nil =>
      constructor
      · intro hunfolded
        cases hunfolded
        exact .none _
      · intro hunfolded
        cases hunfolded
        exact .none _
  | cons top outer =>
      have hlevel : level + (top.nested + 1) = level + 1 + top.nested := by omega
      constructor
      · intro hunfolded
        cases hunfolded with
        | layer houter hheads =>
            rw [hlevel] at houter hheads
            exact .layer houter hheads
      · intro hunfolded
        cases hunfolded with
        | @layer _ _ _ _ _ houter hheads =>
            rw [← hlevel] at houter hheads
            have hopened : Unfolded options calls text level
                ({ top with nested := top.nested + 1 } :: outer) _ := .layer houter hheads
            exact hopened

theorem countValue {text : Bytes} {layers : List Layer}
    (hfirst : directCount 0 calls = directCount level later + 1)
    (hmore : ∀ more, directCount (more + 1) calls = directCount (level + more + 1) later)
    (hunfolded : Unfolded options later text level (Layer.countValue layers) whole) :
    Unfolded options calls text 0 layers whole := by
  cases layers with
  | nil =>
      cases hunfolded
      exact .none 0
  | cons top outer =>
      have hshift : ∀ {layers before}, Unfolded options later text (level + top.nested + 1)
          layers before → Unfolded options calls text (0 + top.nested + 1) layers before := by
        refine fun houter => shift (fun more => ?_) houter
        have hsame := hmore (top.nested + more)
        rw [show level + top.nested + 1 + more = level + (top.nested + more) + 1 by omega, ← hsame]
        exact congrArg (directCount · calls) (by omega)
      by_cases hnested : top.nested = 0
      · rw [Layer.countValue, if_pos hnested] at hunfolded
        cases hunfolded with
        | layer houter hheads =>
            refine .layer (hshift houter) ?_
            rw [hnested, Nat.add_zero, hfirst, ← Nat.add_assoc, Nat.add_right_comm]
            simpa only [hnested, Nat.add_zero] using hheads
      · obtain ⟨nested, hsucc⟩ := Nat.exists_eq_succ_of_ne_zero hnested
        rw [Layer.countValue, if_neg hnested] at hunfolded
        cases hunfolded with
        | layer houter hheads =>
            refine .layer (hshift houter) ?_
            rw [hsucc] at hheads ⊢
            rw [Nat.zero_add, hmore]
            exact hheads

/-! One call back. -/

theorem tag {value : Tag} (htag : Draft.tag config value draft = (.ok (), after))
    (hforesees : after.Foresees options later 0 whole) :
    ∃ before header, draft.Foresees options (.tag value :: later) 0 before ∧
      Header.encode config.tagOptions value = .ok header ∧ whole = before ++ header := by
  obtain ⟨header, counted, nesting, hheader, -, -, rfl⟩ := tag_eq_ok htag
  obtain ⟨before, hbefore, rfl⟩ := hforesees.append
  refine ⟨before, header, ?_, hheader, rfl⟩
  cases hcompound : value.isCompound with
  | false =>
      obtain ⟨hfirst, hmore⟩ := Writer.directCount_value (.tag value) later
        (by rw [Writer.Call.effect, hcompound]; rfl)
      simp only [Foresees, hcompound, Bool.false_eq_true, if_false] at hbefore
      exact countValue hfirst (fun more => by rw [hmore, Nat.zero_add]) hbefore
  | true =>
      obtain ⟨hfirst, hmore⟩ := Writer.directCount_opening (.tag value) later (if_pos hcompound)
      simp only [Foresees, hcompound, if_true] at hbefore
      exact countValue hfirst (fun more => by rw [hmore, Nat.add_comm 1]) (openCounted.mp hbefore)

theorem bytes {payload : Bytes} (hbytes : Draft.bytes config payload draft = (.ok (), after))
    (hforesees : after.Foresees options later 0 whole) :
    ∃ before, draft.Foresees options (.bytes payload :: later) 0 before ∧
      whole = before ++ payload := by
  obtain ⟨nesting, -, rfl⟩ := bytes_eq_ok hbytes
  obtain ⟨before, hbefore, rfl⟩ := hforesees.append
  exact ⟨before, shift (fun more => (Writer.directCount_none rfl _).symm) hbefore, rfl⟩

theorem finishCompound (hfinish : Draft.finishCompound kind draft = (.ok (), after))
    (hforesees : after.Foresees options later 0 whole) :
    draft.Foresees options (.finishCompound kind :: later) 0 whole := by
  obtain ⟨layers, nesting, hlayers, -, rfl⟩ := finishCompound_eq_ok hfinish
  rw [Foresees, hlayers, openCounted]
  refine shift (fun more => ?_) hforesees
  rw [Nat.zero_add, Nat.add_comm 1]
  exact ((Writer.directCount_closing _ _ rfl).2 more).symm

theorem payload (call : Writer.Call) {header : UInt32 → Tag} {content : Bytes}
    (hvalue : call.effect = .value)
    (hheader : ∀ length, (header length).isCompound = true)
    (hpayload : Draft.payload config header kind content draft = (.ok (), after))
    (hforesees : after.Foresees options later 0 whole) :
    content.length < UInt32.size ∧ ∃ before bytes,
      draft.Foresees options (call :: later) 0 before ∧
      Header.encode config.tagOptions (header (UInt32.ofNat content.length)) = .ok bytes ∧
      whole = before ++ (bytes ++ content) := by
  obtain ⟨hlength, first, second, htag, hbytes, hfinish⟩ := payload_eq_ok hpayload
  obtain ⟨behind, hbehind, rfl⟩ := (hforesees.finishCompound hfinish).bytes hbytes
  obtain ⟨before, bytes, hbefore, hencode, rfl⟩ := hbehind.tag htag
  refine ⟨hlength, before, bytes, shift (fun more => ?_) hbefore, hencode, List.append_assoc _ _ _⟩
  exact Writer.directCount_payload (hheader _) hvalue _

theorem beginBuild (hbegin : Draft.beginBuild config kind draft = (.ok (), after))
    (hforesees : after.Foresees options later 0 whole) :
    ∃ before header, draft.Foresees options (.beginBuild kind :: later) 0 before ∧
      Builder.Heads options kind (directCount 0 later) header ∧ whole = before ++ header := by
  obtain ⟨counted, nesting, -, -, rfl⟩ := beginBuild_eq_ok hbegin
  obtain ⟨hfirst, hmore⟩ := Writer.directCount_opening (.beginBuild kind) later rfl
  cases hforesees with
  | layer houter hheads =>
      refine ⟨_, _, countValue hfirst (fun more => ?_) houter, ?_, List.append_nil _⟩
      · rw [hmore, Nat.add_comm 1]
      · simpa only [Nat.zero_add] using hheads

theorem completeBuild (hcomplete : Draft.completeBuild config kind draft = (.ok (), after))
    (hforesees : after.Foresees config.tagOptions later 0 whole) :
    draft.Foresees config.tagOptions (.completeBuild kind :: later) 0 whole := by
  obtain ⟨top, outer, header, nesting, hlayers, rfl, hnested, hheads, -, rfl⟩ :=
    completeBuild_eq_ok hcomplete
  obtain ⟨hfirst, hmore⟩ := Writer.directCount_closing (.completeBuild top.kind) later rfl
  obtain ⟨before, hbefore, rfl⟩ := hforesees.append
  rw [Foresees, hlayers, ← List.append_assoc]
  refine .layer (shift (fun more => ?_) hbefore) ?_
  · rw [hnested, Nat.zero_add, Nat.add_comm (0 + 0 + 1)]
    exact (hmore more).symm
  · rw [hnested, hfirst]
    exact hheads

/-- A call writes a chunk of its own, and what is written before it is foreseen with it. -/
theorem perform (hreplayable : call.Replayable)
    (hperform : Draft.perform config call draft = (.ok (), after))
    (hforesees : after.Foresees config.tagOptions later 0 whole) :
    ∃ before chunk, draft.Foresees config.tagOptions (call :: later) 0 before ∧
      call.Writes config.tagOptions later chunk ∧ whole = before ++ chunk := by
  cases call with
  | tag value =>
      obtain ⟨before, header, hbefore, hencode, rfl⟩ := hforesees.tag hperform
      exact ⟨before, header, hbefore, .tag hencode, rfl⟩
  | bytes content =>
      obtain ⟨before, hbefore, rfl⟩ := hforesees.bytes hperform
      exact ⟨before, content, hbefore, .bytes content, rfl⟩
  | finishCompound kind =>
      exact ⟨whole, [], hforesees.finishCompound hperform, .finishCompound kind,
        (List.append_nil _).symm⟩
  | str text =>
      obtain ⟨hlength, before, header, hbefore, hencode, rfl⟩ :=
        hforesees.payload (.str text) rfl (fun _ => rfl) hperform
      exact ⟨before, _, hbefore, .str hlength hencode, rfl⟩
  | bin content =>
      obtain ⟨hlength, before, header, hbefore, hencode, rfl⟩ :=
        hforesees.payload (.bin content) rfl (fun _ => rfl) hperform
      exact ⟨before, _, hbefore, .bin hlength hencode, rfl⟩
  | ext type content =>
      obtain ⟨hlength, before, header, hbefore, hencode, rfl⟩ :=
        hforesees.payload (.ext type content) rfl (fun _ => rfl) hperform
      exact ⟨before, _, hbefore, .ext hlength hencode, rfl⟩
  | object encoded => cases hreplayable
  | beginBuild kind =>
      obtain ⟨before, header, hbefore, hheads, rfl⟩ := hforesees.beginBuild hperform
      exact ⟨before, header, hbefore, .beginBuild hreplayable hheads, rfl⟩
  | completeBuild kind =>
      exact ⟨whole, [], hforesees.completeBuild hperform, .completeBuild kind,
        (List.append_nil _).symm⟩
  | flush =>
      cases hperform
      refine ⟨whole, [], shift (fun more => ?_) hforesees, .flush, (List.append_nil _).symm⟩
      exact (Writer.directCount_none rfl _).symm
  | finish =>
      obtain ⟨rfl, -⟩ := finish_eq_ok hperform
      refine ⟨whole, [], shift (fun more => ?_) hforesees, .finish, (List.append_nil _).symm⟩
      exact (Writer.directCount_none rfl _).symm

end Foresees

/-- Calls that leave no build open write the text that is foretold of them. -/
theorem foretold_of_run (hreplayable : ∀ call ∈ calls, call.Replayable)
    (hrun : run config calls draft = (.ok (), after)) (hlayers : after.layers = []) :
    ∃ before text, draft.Foresees config.tagOptions calls 0 before ∧
      Foretold config.tagOptions calls text ∧ after.text = before ++ text := by
  induction calls generalizing draft with
  | nil =>
      cases hrun
      refine ⟨after.text, [], ?_, .none, (List.append_nil _).symm⟩
      rw [Foresees, hlayers]
      exact .none 0
  | cons call calls ih =>
      obtain ⟨_, middle, hperform, hrest⟩ := Attempt.bind_eq_ok hrun
      obtain ⟨behind, text, hbehind, hforetold, htext⟩ :=
        ih (fun other hother => hreplayable other (.tail _ hother)) hrest
      obtain ⟨before, chunk, hbefore, hwrites, rfl⟩ :=
        hbehind.perform (hreplayable call (.head _)) hperform
      exact ⟨before, chunk ++ text, hbefore, .call hwrites hforetold,
        htext.trans (List.append_assoc _ _ _)⟩

end Draft
end MessagePack
