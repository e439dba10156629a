import MessagePack.Proofs.Calls

/-!
What a call has done that has succeeded: what the nesting took, what became of the open builds,
and what was written.
-/

namespace MessagePack

namespace Builder

/-- The header of a build that holds `count` values, which are pairs in a map. -/
structure Heads (options : TagOptions) (kind : Compound) (count : Nat) (header : Bytes) :
    Prop where
  header : Builder.header options kind count = .ok header
  pairs : kind = .map → count % 2 = 0

theorem Heads.tag {options : TagOptions} {kind : Compound} {count : Nat} {header : Bytes}
    (hheads : Heads options kind count header) :
    (kind ≠ .map ∧ ∃ units : UInt32, units.toNat = count ∧
        Header.encode options (.array units) = .ok header) ∨
      (kind = .map ∧ ∃ units : UInt32, 2 * units.toNat = count ∧
        Header.encode options (.map units) = .ok header) := by
  obtain ⟨hheader, hpairs⟩ := hheads
  by_cases hmap : kind = .map
  · have heven := hpairs hmap
    simp only [Builder.header, hmap, if_true] at hheader
    split at hheader
    · next hunits =>
        have hword : (UInt32.ofNat (count / 2)).toNat = count / 2 := Nat.mod_eq_of_lt hunits
        exact .inr ⟨hmap, _, by omega, hheader⟩
    · cases hheader
  · simp only [Builder.header, hmap, if_false] at hheader
    split at hheader
    · next hunits => exact .inl ⟨hmap, UInt32.ofNat count, Nat.mod_eq_of_lt hunits, hheader⟩
    · cases hheader

end Builder

namespace Draft

variable {config : Config} {draft after : Draft} {kind : Compound}

theorem track_eq_ok {operation : Nesting → Except Error Nesting}
    (htrack : track operation draft = (.ok (), after)) :
    ∃ nesting, operation draft.nesting = .ok nesting ∧ after = { draft with nesting } :=
  Attempt.update_eq_ok htrack

theorem emit_eq_ok {bytes : Bytes} (hemit : emit config bytes draft = (.ok (), after)) :
    after = draft.append bytes := by
  unfold emit at hemit
  split at hemit
  · cases hemit
  · cases hemit
    rfl

theorem tag_eq_ok {value : Tag} (htag : tag config value draft = (.ok (), after)) :
    ∃ header counted nesting, Header.encode config.tagOptions value = .ok header ∧
      draft.nesting.element = .ok counted ∧ counted.enterTag value = .ok nesting ∧
      after = Draft.append header { draft with
        nesting
        layers :=
          if value.isCompound then Layer.openCounted (Layer.countValue draft.layers)
          else Layer.countValue draft.layers } := by
  obtain ⟨header, first, hlift, hfirst⟩ := Attempt.bind_eq_ok htag
  obtain ⟨hheader, rfl⟩ := Attempt.lift_eq_ok hlift
  obtain ⟨_, second, helement, hsecond⟩ := Attempt.bind_eq_ok hfirst
  obtain ⟨counted, hcounted, rfl⟩ := track_eq_ok helement
  obtain ⟨_, third, henter, hthird⟩ := Attempt.bind_eq_ok hsecond
  obtain ⟨nesting, hentered, rfl⟩ := track_eq_ok henter
  rw [Attempt.modify_bind] at hthird
  refine ⟨header, counted, nesting, hheader, hcounted, hentered, ?_⟩
  cases hcompound : value.isCompound with
  | true =>
      rw [hcompound, if_pos rfl, Attempt.modify_bind] at hthird
      exact emit_eq_ok hthird
  | false =>
      rw [hcompound, if_neg Bool.false_ne_true] at hthird
      exact emit_eq_ok hthird

theorem bytes_eq_ok {payload : Bytes} (hbytes : bytes config payload draft = (.ok (), after)) :
    ∃ nesting, draft.nesting.bytes payload.length = .ok nesting ∧
      after = Draft.append payload { draft with nesting } := by
  obtain ⟨_, middle, htrack, hemit⟩ := Attempt.bind_eq_ok hbytes
  obtain ⟨nesting, hnesting, rfl⟩ := track_eq_ok htrack
  exact ⟨nesting, hnesting, emit_eq_ok hemit⟩

/-- Outside every build nothing is counted. -/
theorem closeCounted_eq_ok (hclose : closeCounted draft = (.ok (), after)) :
    ∃ layers, draft.layers = Layer.openCounted layers ∧ after = { draft with layers } := by
  obtain ⟨nesting, layers, text⟩ := draft
  cases layers with
  | nil =>
      cases hclose
      exact ⟨[], rfl, rfl⟩
  | cons top outer =>
      by_cases hnested : top.nested = 0
      · simp only [closeCounted, hnested, if_true] at hclose
        cases hclose
      · simp only [closeCounted, hnested, if_false] at hclose
        cases hclose
        refine ⟨{ top with nested := top.nested - 1 } :: outer, ?_, rfl⟩
        rw [Layer.openCounted, Nat.sub_add_cancel (Nat.pos_of_ne_zero hnested)]

theorem finishCompound_eq_ok (hfinish : finishCompound kind draft = (.ok (), after)) :
    ∃ layers nesting, draft.layers = Layer.openCounted layers ∧
      draft.nesting.leave kind = .ok nesting ∧ after = { draft with nesting, layers } := by
  obtain ⟨_, middle, hclose, htrack⟩ := Attempt.bind_eq_ok hfinish
  obtain ⟨layers, hlayers, rfl⟩ := closeCounted_eq_ok hclose
  obtain ⟨nesting, hleave, rfl⟩ := track_eq_ok htrack
  exact ⟨layers, nesting, hlayers, hleave, rfl⟩

theorem payload_eq_ok {header : UInt32 → Tag} {content : Bytes}
    (hpayload : payload config header kind content draft = (.ok (), after)) :
    content.length < UInt32.size ∧ ∃ first second,
      tag config (header (UInt32.ofNat content.length)) draft = (.ok (), first) ∧
      bytes config content first = (.ok (), second) ∧
      finishCompound kind second = (.ok (), after) := by
  unfold payload at hpayload
  split at hpayload
  · next hlength =>
      obtain ⟨_, first, htag, hrest⟩ := Attempt.bind_eq_ok hpayload
      obtain ⟨_, second, hbytes, hfinish⟩ := Attempt.bind_eq_ok hrest
      exact ⟨hlength, first, second, htag, hbytes, hfinish⟩
  · cases hpayload

theorem object_eq_ok {encoded : Bytes} (hobject : object config encoded draft = (.ok (), after)) :
    ∃ nesting, draft.nesting.element = .ok nesting ∧ after =
      Draft.append encoded { draft with nesting, layers := Layer.countValue draft.layers } := by
  obtain ⟨_, middle, htrack, hrest⟩ := Attempt.bind_eq_ok hobject
  obtain ⟨nesting, helement, rfl⟩ := track_eq_ok htrack
  rw [Attempt.modify_bind] at hrest
  exact ⟨nesting, helement, emit_eq_ok hrest⟩

theorem beginBuild_eq_ok (hbegin : beginBuild config kind draft = (.ok (), after)) :
    ∃ counted nesting, draft.nesting.element = .ok counted ∧
      counted.enterOpenEnded kind = .ok nesting ∧ after =
        { draft with nesting, layers := { kind } :: Layer.countValue draft.layers } := by
  obtain ⟨_, first, hlift, hfirst⟩ := Attempt.bind_eq_ok hbegin
  obtain ⟨-, rfl⟩ := Attempt.lift_eq_ok hlift
  obtain ⟨_, second, helement, hsecond⟩ := Attempt.bind_eq_ok hfirst
  obtain ⟨counted, hcounted, rfl⟩ := track_eq_ok helement
  obtain ⟨_, third, henter, hthird⟩ := Attempt.bind_eq_ok hsecond
  obtain ⟨nesting, hentered, rfl⟩ := track_eq_ok henter
  cases hthird
  exact ⟨counted, nesting, hcounted, hentered, rfl⟩

theorem checkComplete_eq_ok (hcheck : checkComplete config kind draft = .ok ()) :
    ∃ top outer, draft.layers = top :: outer ∧ top.kind = kind ∧ top.nested = 0 ∧
      (kind = .map → top.count % 2 = 0) := by
  obtain ⟨_, -, hrest⟩ := bind_eq_ok hcheck
  cases hlayers : draft.layers with
  | nil => rw [hlayers] at hrest; cases hrest
  | cons top outer =>
      rw [hlayers] at hrest
      by_cases hkind : top.kind = kind
      · by_cases hnested : top.nested = 0
        · refine ⟨top, outer, rfl, hkind, hnested, fun hmap => ?_⟩
          by_cases heven : top.count % 2 = 0
          · exact heven
          · simp [hkind, hnested, hmap, heven] at hrest
        · simp [hkind, hnested] at hrest
      · simp [hkind] at hrest

theorem completeBuild_eq_ok (hcomplete : completeBuild config kind draft = (.ok (), after)) :
    ∃ top outer header nesting, draft.layers = top :: outer ∧ top.kind = kind ∧
      top.nested = 0 ∧ Builder.Heads config.tagOptions kind top.count header ∧
      draft.nesting.leave kind = .ok nesting ∧ after =
        Draft.append (header ++ top.text) { draft with nesting, layers := outer } := by
  rw [completeBuild, Attempt.get_bind] at hcomplete
  obtain ⟨_, first, hlift, hrest⟩ := Attempt.bind_eq_ok hcomplete
  obtain ⟨hcheck, rfl⟩ := Attempt.lift_eq_ok hlift
  obtain ⟨_, second, htrack, hfold⟩ := Attempt.bind_eq_ok hrest
  obtain ⟨nesting, hleave, rfl⟩ := track_eq_ok htrack
  obtain ⟨top, outer, hlayers, rfl, hnested, hpairs⟩ := checkComplete_eq_ok hcheck
  simp only [fold, hlayers] at hfold
  cases hheader : Builder.header config.tagOptions top.kind top.count with
  | error error => rw [hheader] at hfold; cases hfold
  | ok header =>
      rw [hheader] at hfold
      cases hfold
      exact ⟨top, outer, header, nesting, hlayers, rfl, hnested, ⟨hheader, hpairs⟩, hleave, rfl⟩

theorem finish_eq_ok (hfinish : finish draft = (.ok (), after)) :
    after = draft ∧ draft.layers = [] ∧ draft.nesting.frames = [] := by
  rw [finish, Attempt.get_bind] at hfinish
  by_cases hlayers : draft.layers = []
  · rw [if_neg (fun hpending => hpending hlayers)] at hfinish
    have hend : (Attempt.lift draft.nesting.checkClosed >>= fun _ => flush) draft =
      (.ok (), after) := hfinish
    obtain ⟨_, middle, hclosed, hflush⟩ := Attempt.bind_eq_ok hend
    obtain ⟨hclosed, rfl⟩ := Attempt.lift_eq_ok hclosed
    cases hflush
    refine ⟨rfl, hlayers, ?_⟩
    unfold Nesting.checkClosed at hclosed
    split at hclosed
    · assumption
    · cases hclosed
  · rw [if_pos hlayers] at hfinish
    cases hfinish

end Draft
end MessagePack
