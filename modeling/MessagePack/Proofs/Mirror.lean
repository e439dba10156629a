import MessagePack.Proofs.Nesting

/-!
Nestings in lockstep. Where one side opens a compound of any number of elements, the other is told
how many there will be, and takes the same steps.
-/

namespace MessagePack

/-- A frame of a known count, if it is owed so much. -/
def Frame.settled (owed : Nat) (frame : Frame) : Frame :=
  if frame.openEnded then
    { kind := frame.kind, remaining := frame.remaining + owed }
  else
    frame

/-- Frames with what is owed at each level, innermost first. -/
def settled (owed : Nat → Nat) : List Frame → List Frame
  | [] => []
  | frame :: outer => frame.settled (owed 0) :: settled (fun level => owed (level + 1)) outer

theorem length_settled (owed : Nat → Nat) (frames : List Frame) :
    (settled owed frames).length = frames.length := by
  induction frames generalizing owed with
  | nil => rfl
  | cons frame outer ih => rw [settled, List.length_cons, List.length_cons, ih]

namespace Nesting

/-- The same compounds are open, but what the open-ended ones will hold is known. -/
structure Mirrors (owed : Nat → Nat) (nesting mirrored : Nesting) : Prop where
  enabled : nesting.enabled = true
  eq : mirrored = { nesting with frames := settled owed nesting.frames }

namespace Mirrors

variable {owed : Nat → Nat} {nesting mirrored after : Nesting} {kind : Compound}
  {frame : Frame}

theorem depth (hmirrors : Mirrors owed nesting mirrored) : mirrored.depth = nesting.depth := by
  rw [hmirrors.eq, Nesting.depth, length_settled, Nesting.depth]

theorem element (hmirrors : Mirrors owed nesting mirrored) (more : Nat → Nat)
    (hfirst : owed 0 = more 0 + 1) (hmore : ∀ level, owed (level + 1) = more (level + 1))
    (helement : nesting.element = .ok after) :
    ∃ later, mirrored.element = .ok later ∧ Mirrors more after later := by
  obtain ⟨henabled, rfl⟩ := hmirrors
  have hcases := element_eq_ok henabled helement
  obtain ⟨frames, enabled, limit⟩ := nesting
  simp only at henabled hcases
  subst henabled
  rcases hcases with ⟨rfl, rfl⟩ | ⟨top, outer, rfl, hkind, hcases⟩
  · exact ⟨_, rfl, rfl, rfl⟩
  · have houter : (fun level => owed (level + 1)) = fun level => more (level + 1) := funext hmore
    rcases hcases with ⟨hended, rfl⟩ | ⟨hended, hremaining, rfl⟩
    · refine ⟨_, ?_, rfl, rfl⟩
      simp [Nesting.element, settled, Frame.settled, hended, hkind, hfirst, houter]
    · refine ⟨_, ?_, rfl, rfl⟩
      simp [Nesting.element, settled, Frame.settled, hended, hkind, hremaining, houter]

theorem push (hmirrors : Mirrors owed nesting mirrored) (more : Nat → Nat)
    (hmore : ∀ level, owed level = more (level + 1)) (hpush : nesting.push frame = .ok after) :
    ∃ later, mirrored.push (frame.settled (more 0)) = .ok later ∧ Mirrors more after later := by
  obtain ⟨henabled, rfl⟩ := hmirrors
  have hafter := push_eq_ok henabled hpush
  subst hafter
  refine ⟨_, ?_, henabled, rfl⟩
  have hroom : room { nesting with frames := settled owed nesting.frames } = nesting.room := by
    simp only [room, Nesting.depth, length_settled]
  rw [push_eq] at hpush ⊢
  rw [hroom]
  cases hdeeper : nesting.room.deeper with
  | error error => rw [hdeeper] at hpush; cases hpush
  | ok room =>
      have houter : owed = fun level => more (level + 1) := funext hmore
      simp only [Except.map, pushed, henabled, if_true, settled, houter]

theorem bytes {count : Nat} (hmirrors : Mirrors owed nesting mirrored)
    (hbytes : nesting.bytes count = .ok after) :
    ∃ later, mirrored.bytes count = .ok later ∧ Mirrors owed after later := by
  obtain ⟨henabled, rfl⟩ := hmirrors
  obtain ⟨top, outer, hframes, hkind, hcount, rfl⟩ := bytes_eq_ok henabled hbytes
  refine ⟨_, ?_, henabled, rfl⟩
  cases hended : top.openEnded with
  | false =>
      simp [Nesting.bytes, hframes, settled, Frame.settled, hended, hkind, henabled,
        Nat.not_lt.mpr hcount]
  | true =>
      have hroom : ¬top.remaining + owed 0 < count := by omega
      have hrest : top.remaining + owed 0 - count = top.remaining - count + owed 0 := by omega
      simp [Nesting.bytes, hframes, settled, Frame.settled, hended, hkind, henabled, hroom, hrest]

theorem leave (hmirrors : Mirrors owed nesting mirrored) (more : Nat → Nat)
    (hfirst : owed 0 = 0) (hmore : ∀ level, owed (level + 1) = more level)
    (hleave : nesting.leave kind = .ok after) :
    ∃ later, mirrored.leave kind = .ok later ∧ Mirrors more after later := by
  obtain ⟨henabled, rfl⟩ := hmirrors
  obtain ⟨top, outer, hframes, hkind, hremaining, rfl⟩ := leave_eq_ok henabled hleave
  refine ⟨_, ?_, henabled, rfl⟩
  have houter : (fun level => owed (level + 1)) = more := funext hmore
  cases hended : top.openEnded <;>
    simp [Nesting.leave, hframes, settled, Frame.settled, hended, hkind, henabled, hfirst,
      hremaining, houter]

theorem checkClosed (hmirrors : Mirrors owed nesting mirrored) (hframes : nesting.frames = []) :
    mirrored.checkClosed = .ok () := by
  rw [hmirrors.eq, Nesting.checkClosed, hframes]
  rfl

end Mirrors
end Nesting
end MessagePack
