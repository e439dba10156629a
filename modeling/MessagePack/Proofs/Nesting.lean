import MessagePack.Nesting

/-!
Nesting that goes well: what a level takes, and how entering and leaving a compound come back
to where they began.
-/

namespace MessagePack

/-- How deep the nesting is and how deep it may be; nothing where it is not bounded. -/
abbrev Room := Option (Nat × Nat)

def Room.deeper : Room → Except Error Room
  | none => .ok none
  | some (depth, limit) =>
      if limit ≤ depth then
        .error (.tooDeep (depth + 1) limit)
      else
        .ok (some (depth + 1, limit))

namespace Nesting

variable {nesting : Nesting} {kind : Compound} {count : Nat}

def room (nesting : Nesting) : Room :=
  if nesting.enabled then nesting.limit.map fun limit => (nesting.depth, limit) else none

def pushed (frame : Frame) (nesting : Nesting) : Nesting :=
  if nesting.enabled then { nesting with frames := frame :: nesting.frames } else nesting

/-- With `count` elements charged to the innermost compound. -/
def charged (count : Nat) (nesting : Nesting) : Nesting :=
  match nesting.frames with
  | [] => nesting
  | top :: outer =>
      if nesting.enabled ∧ ¬top.openEnded then
        { nesting with frames := { top with remaining := top.remaining - count } :: outer }
      else
        nesting

/-- The innermost compound is owed at least `count` elements, or takes any number. -/
def Accepts (count : Nat) (nesting : Nesting) : Prop :=
  nesting.enabled = true → ∀ top ∈ nesting.frames.head?,
    top.kind.holdsBytes = false ∧ (top.openEnded = false → count ≤ top.remaining)

theorem push_eq (frame : Frame) :
    nesting.push frame = nesting.room.deeper.map fun _ => nesting.pushed frame := by
  cases henabled : nesting.enabled with
  | false => simp [push, room, Room.deeper, pushed, henabled, Except.map]
  | true =>
      cases hlimit : nesting.limit with
      | none => simp [push, room, Room.deeper, pushed, henabled, hlimit, Except.map]
      | some limit =>
          by_cases hfull : limit ≤ nesting.depth <;>
            simp [push, room, Room.deeper, pushed, henabled, hlimit, hfull, Except.map]

theorem room_pushed {room : Room} (hroom : nesting.room.deeper = .ok room) (frame : Frame) :
    (nesting.pushed frame).room = room := by
  cases henabled : nesting.enabled with
  | false => simpa [Nesting.room, Room.deeper, pushed, henabled] using hroom
  | true =>
      cases hlimit : nesting.limit with
      | none => simpa [Nesting.room, Room.deeper, pushed, henabled, hlimit] using hroom
      | some limit =>
          simp only [Nesting.room, Room.deeper, henabled, hlimit, if_true, Option.map_some]
            at hroom
          split at hroom
          · cases hroom
          · cases hroom
            simp [Nesting.room, pushed, henabled, hlimit, depth]

/-- Nothing is counted at the innermost level. -/
def Free (nesting : Nesting) : Prop :=
  nesting.enabled = true → ∀ top ∈ nesting.frames.head?, top.openEnded = true

theorem free_or_counted (nesting : Nesting) : nesting.Free ∨ ∃ top outer,
    nesting.enabled = true ∧ nesting.frames = top :: outer ∧ top.openEnded = false := by
  obtain ⟨frames, enabled, limit⟩ := nesting
  cases frames with
  | nil => exact .inl fun _ top htop => by cases htop
  | cons top outer =>
      by_cases hcounted : enabled = true ∧ top.openEnded = false
      · exact .inr ⟨top, outer, hcounted.1, rfl, hcounted.2⟩
      · refine .inl fun henabled other hother => ?_
        cases hother
        cases hended : top.openEnded with
        | true => rfl
        | false => exact absurd ⟨henabled, hended⟩ hcounted

theorem charged_of_free (hfree : nesting.Free) (count : Nat) :
    nesting.charged count = nesting := by
  unfold charged
  split
  · rfl
  · next top outer hframes =>
      rw [if_neg]
      intro hcounted
      exact hcounted.2 (hfree hcounted.1 top (by rw [hframes]; rfl))

theorem charged_of_counted {top : Frame} {outer : List Frame} (henabled : nesting.enabled = true)
    (hframes : nesting.frames = top :: outer) (hended : top.openEnded = false) (count : Nat) :
    nesting.charged count =
      { nesting with frames := { top with remaining := top.remaining - count } :: outer } := by
  unfold charged
  rw [hframes]
  simp [henabled, hended]

@[simp] theorem room_charged (count : Nat) : (nesting.charged count).room = nesting.room := by
  rcases nesting.free_or_counted with hfree | ⟨top, outer, henabled, hframes, hended⟩
  · rw [charged_of_free hfree]
  · rw [charged_of_counted henabled hframes hended]
    simp [room, depth, hframes]

theorem charged_charged (first second : Nat) :
    (nesting.charged first).charged second = nesting.charged (first + second) := by
  rcases nesting.free_or_counted with hfree | ⟨top, outer, henabled, hframes, hended⟩
  · rw [charged_of_free hfree, charged_of_free hfree, charged_of_free hfree]
  · rw [charged_of_counted henabled hframes hended, charged_of_counted henabled hframes hended]
    simp [charged, henabled, hended, Nat.sub_sub]

@[simp] theorem charged_zero : nesting.charged 0 = nesting := by
  rcases nesting.free_or_counted with hfree | ⟨top, outer, henabled, hframes, hended⟩
  · rw [charged_of_free hfree]
  · rw [charged_of_counted henabled hframes hended, Nat.sub_zero, ← hframes]

/-! Elements. -/

theorem Accepts.element (haccepts : nesting.Accepts 1) :
    nesting.element = .ok (nesting.charged 1) := by
  rcases nesting.free_or_counted with hfree | ⟨top, outer, henabled, hframes, hended⟩
  · rw [charged_of_free hfree, Nesting.element]
    cases henabled : nesting.enabled with
    | false => rfl
    | true =>
        cases hframes : nesting.frames with
        | nil => rfl
        | cons top outer =>
            have htop : top ∈ nesting.frames.head? := by rw [hframes]; rfl
            simp [(haccepts henabled top htop).1, hfree henabled top htop]
  · have htop : top ∈ nesting.frames.head? := by rw [hframes]; rfl
    obtain ⟨hkind, hremaining⟩ := haccepts henabled top htop
    have hpositive : top.remaining ≠ 0 := by have := hremaining hended; omega
    rw [charged_of_counted henabled hframes hended]
    simp [Nesting.element, henabled, hframes, hkind, hended, hpositive]

theorem Accepts.mono {more : Nat} (haccepts : nesting.Accepts more) (hle : count ≤ more) :
    nesting.Accepts count :=
  fun henabled top htop =>
    ⟨(haccepts henabled top htop).1,
      fun hended => Nat.le_trans hle ((haccepts henabled top htop).2 hended)⟩

theorem Accepts.charged {more : Nat} (haccepts : nesting.Accepts (count + more)) :
    (nesting.charged count).Accepts more := by
  rcases nesting.free_or_counted with hfree | ⟨top, outer, henabled, hframes, hended⟩
  · rw [charged_of_free hfree]
    exact haccepts.mono (Nat.le_add_left more count)
  · rw [charged_of_counted henabled hframes hended]
    intro _ other hother
    cases hother
    obtain ⟨hkind, hremaining⟩ := haccepts henabled top (by rw [hframes]; rfl)
    refine ⟨hkind, fun _ => ?_⟩
    have := hremaining hended
    simp only
    omega

theorem accepts_pushed (hkind : kind.holdsBytes = false) (more : Nat) (outer : Nesting) :
    (outer.pushed { kind, remaining := count + more }).Accepts count := by
  unfold pushed
  split
  · intro _ top htop
    cases htop
    exact ⟨hkind, fun _ => Nat.le_add_right count more⟩
  · next hdisabled => exact fun henabled => absurd henabled hdisabled

theorem accepts_openEnded (hkind : kind.holdsBytes = false) (outer : Nesting) :
    (outer.pushed { kind, remaining := 0, openEnded := true }).Accepts count := by
  unfold pushed
  split
  · intro _ top htop
    cases htop
    exact ⟨hkind, fun hended => by cases hended⟩
  · next hdisabled => exact fun henabled => absurd henabled hdisabled

/-! Leaving what was entered. -/

theorem bytes_pushed (hkind : kind.holdsBytes = true) :
    (nesting.pushed { kind, remaining := count }).bytes count =
      .ok (nesting.pushed { kind, remaining := 0 }) := by
  cases henabled : nesting.enabled <;> simp [pushed, Nesting.bytes, henabled, hkind]

theorem charged_opened (more : Nat) :
    (nesting.pushed { kind, remaining := count }).charged more =
      nesting.pushed { kind, remaining := count - more } := by
  cases henabled : nesting.enabled with
  | true => simp [pushed, charged, henabled]
  | false =>
      simp only [pushed, henabled, Bool.false_eq_true, if_false]
      exact charged_of_free (fun hfalse => by rw [henabled] at hfalse; cases hfalse) more

theorem charged_pushed :
    (nesting.pushed { kind, remaining := count }).charged count =
      nesting.pushed { kind, remaining := 0 } := by
  rw [charged_opened, Nat.sub_self]

theorem charged_openEnded :
    (nesting.pushed { kind, remaining := 0, openEnded := true }).charged count =
      nesting.pushed { kind, remaining := 0, openEnded := true } := by
  refine charged_of_free ?_ count
  intro henabled top htop
  cases hon : nesting.enabled with
  | true =>
      simp only [pushed, hon, if_true, List.head?_cons, Option.mem_def, Option.some.injEq] at htop
      rw [← htop]
  | false => simp [pushed, hon] at henabled

theorem leave_pushed (openEnded : Bool) :
    (nesting.pushed { kind, remaining := 0, openEnded }).leave kind = .ok nesting := by
  obtain ⟨frames, enabled, limit⟩ := nesting
  cases enabled <;> simp [pushed, leave]

/-! What must have been open where an operation on tracked compounds succeeds. -/

theorem element_eq_ok {after : Nesting} (henabled : nesting.enabled = true)
    (helement : nesting.element = .ok after) :
    (nesting.frames = [] ∧ after = nesting) ∨ ∃ top outer, nesting.frames = top :: outer ∧
      top.kind.holdsBytes = false ∧ ((top.openEnded = true ∧ after = nesting) ∨
        (top.openEnded = false ∧ top.remaining ≠ 0 ∧ after = { nesting with
          frames := { top with remaining := top.remaining - 1 } :: outer })) := by
  obtain ⟨frames, enabled, limit⟩ := nesting
  subst henabled
  cases frames with
  | nil =>
      cases helement
      exact .inl ⟨rfl, rfl⟩
  | cons top outer =>
      cases hkind : top.kind.holdsBytes with
      | true => simp [element, hkind] at helement
      | false =>
          refine .inr ⟨top, outer, rfl, hkind, ?_⟩
          cases hended : top.openEnded with
          | true =>
              simp [element, hkind, hended] at helement
              exact .inl ⟨rfl, helement.symm⟩
          | false =>
              by_cases hremaining : top.remaining = 0
              · simp [element, hkind, hended, hremaining] at helement
              · simp [element, hkind, hended, hremaining] at helement
                exact .inr ⟨rfl, hremaining, helement.symm⟩

theorem bytes_eq_ok {after : Nesting} (henabled : nesting.enabled = true)
    (hbytes : nesting.bytes count = .ok after) :
    ∃ top outer, nesting.frames = top :: outer ∧ top.kind.holdsBytes = true ∧
      count ≤ top.remaining ∧ after = { nesting with
        frames := { top with remaining := top.remaining - count } :: outer } := by
  obtain ⟨frames, enabled, limit⟩ := nesting
  subst henabled
  cases frames with
  | nil => cases hbytes
  | cons top outer =>
      cases hkind : top.kind.holdsBytes with
      | false => simp [bytes, hkind] at hbytes
      | true =>
          by_cases hremaining : top.remaining < count
          · simp [bytes, hkind, hremaining] at hbytes
          · simp [bytes, hkind, hremaining] at hbytes
            exact ⟨top, outer, rfl, hkind, by omega, hbytes.symm⟩

theorem leave_eq_ok {after : Nesting} (henabled : nesting.enabled = true)
    (hleave : nesting.leave kind = .ok after) :
    ∃ top outer, nesting.frames = top :: outer ∧ top.kind = kind ∧ top.remaining = 0 ∧
      after = { nesting with frames := outer } := by
  obtain ⟨frames, enabled, limit⟩ := nesting
  subst henabled
  cases frames with
  | nil => cases hleave
  | cons top outer =>
      by_cases hkind : top.kind = kind
      · by_cases hremaining : top.remaining = 0
        · simp [leave, hkind, hremaining] at hleave
          exact ⟨top, outer, rfl, hkind, hremaining, hleave.symm⟩
        · simp [leave, hkind, hremaining] at hleave
      · simp [leave, hkind] at hleave

theorem push_eq_ok {after : Nesting} {frame : Frame} (henabled : nesting.enabled = true)
    (hpush : nesting.push frame = .ok after) :
    after = { nesting with frames := frame :: nesting.frames } := by
  rw [push_eq] at hpush
  cases hroom : nesting.room.deeper with
  | error error => rw [hroom] at hpush; cases hpush
  | ok room =>
      rw [hroom] at hpush
      cases hpush
      rw [pushed, if_pos henabled]

end Nesting
end MessagePack
