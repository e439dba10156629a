import MessagePack.Proofs.Cursor

/-!
Reading on where nothing may be read. A tracked reader decodes the next header before it looks
at what is open, so the misuse is reported only where that header can be read.
-/

namespace MessagePack

variable {usage : Usage}

namespace Nesting

variable {nesting : Nesting}

/-- The innermost compound takes no further element, for the reason given. -/
inductive Refuses (nesting : Nesting) : Usage → Prop
  | payload {top : Frame} {outer : List Frame} (henabled : nesting.enabled = true)
      (hframes : nesting.frames = top :: outer) (hholds : top.kind.holdsBytes = true) :
      Refuses nesting (.unfinishedBytes top.kind top.remaining)
  | exhausted {top : Frame} {outer : List Frame} (henabled : nesting.enabled = true)
      (hframes : nesting.frames = top :: outer) (hholds : top.kind.holdsBytes = false)
      (hcounted : top.openEnded = false) (hremaining : top.remaining = 0) :
      Refuses nesting (.tooManyElements top.kind)

/-- These are the elements that are turned away. -/
theorem refuses_iff : nesting.Refuses usage ↔ nesting.element = .error (.usage usage) := by
  constructor
  · intro hrefuses
    cases hrefuses with
    | payload henabled hframes hholds =>
        simp [element, henabled, hframes, hholds]
    | exhausted henabled hframes hholds hcounted hremaining =>
        simp [element, henabled, hframes, hholds, hcounted, hremaining]
  · intro helement
    unfold element at helement
    split at helement
    · cases helement
    · next hdisabled =>
        have henabled : nesting.enabled = true := by simpa using hdisabled
        split at helement
        · cases helement
        · next top outer hframes =>
            split at helement
            · next hholds =>
                cases helement
                exact .payload henabled hframes hholds
            · next hholds =>
                split at helement
                · cases helement
                · next hcounted =>
                    split at helement
                    · next hremaining =>
                        cases helement
                        exact .exhausted henabled hframes (by simpa using hholds)
                          (by simpa using hcounted) hremaining
                    · cases helement

end Nesting

namespace Reader

variable {ι : Type} [ByteInput ι]

namespace State

variable {state after : State ι}

omit [ByteInput ι] in
theorem nesting_onInput {α : Type} {attempt : Attempt ι α} {result : Except Error α}
    (hrun : onInput attempt state = (result, after)) : after.nesting = state.nesting := by
  cases hrun
  rfl

/-- Looking at the next header does not touch what is open. -/
theorem nesting_header {result : Except Error (Tag × Nat)}
    (hheader : header state = (result, after)) : after.nesting = state.nesting := by
  rcases hfirst : onInput (ByteInput.ahead 1) state with ⟨first, middle⟩
  have hmiddle := nesting_onInput hfirst
  cases first with
  | error error =>
      rw [header, Attempt.bind_of_error hfirst] at hheader
      cases hheader
      exact hmiddle
  | ok first =>
      rw [header, Attempt.bind_of_ok hfirst] at hheader
      rcases hall : onInput (ByteInput.ahead (Header.size (first.headD 0))) middle with
        ⟨bytes, last⟩
      have hlast := (nesting_onInput hall).trans hmiddle
      cases bytes with
      | error error =>
          rw [Attempt.bind_of_error hall] at hheader
          cases hheader
          exact hlast
      | ok bytes =>
          rw [Attempt.bind_of_ok hall, Attempt.get_bind] at hheader
          cases hdecode : Header.decode last.options bytes with
          | error error => rw [hdecode] at hheader; cases hheader; exact hlast
          | ok found => rw [hdecode] at hheader; cases hheader; exact hlast

theorem peekTag_of_header {found : Tag × Nat} (hheader : header state = (.ok found, after)) :
    peekTag state = (.ok found.1, after) :=
  Attempt.bind_of_ok hheader

theorem readTag_of_header_error {error : Error} (hheader : header state = (.error error, after)) :
    readTag state = (.error error, after) := by
  rw [readTag, nextTag, Attempt.bind_of_error hheader]

theorem readTag_of_refuses {found : Tag × Nat} (hrefuses : state.nesting.Refuses usage)
    (hheader : header state = (.ok found, after)) :
    readTag state = (.error (.usage usage), after) := by
  have helement : after.nesting.element = .error (.usage usage) := by
    rw [nesting_header hheader]
    exact Nesting.refuses_iff.mp hrefuses
  rw [readTag, nextTag, Attempt.bind_of_ok hheader]
  exact Attempt.bind_of_error (Attempt.update_of_error helement)

end State

/-- Where no further element may be read, reading one is reported as the misuse it is when the
next header can be looked at, and as what is wrong with that header when it cannot. -/
theorem perform_readTag_refused {reader : Reader ι} (hsteady : reader.error? = none)
    (hrefuses : reader.state.nesting.Refuses usage) :
    (∀ reply after, perform .peekTag reader = (.ok reply, after) →
      perform .readTag reader =
        (.error (.usage usage), { after with error? := some (.usage usage) })) ∧
    ∀ error after, perform .peekTag reader = (.error error, after) →
      perform .readTag reader = (.error error, after) := by
  obtain ⟨state, error?⟩ := reader
  obtain rfl : error? = none := hsteady
  rcases hheader : State.header state with ⟨found | found, last⟩
  · have hpeek : perform .peekTag { state } =
        (.error found, { state := last, error? := some found }) :=
      Latch.call_of_error (Attempt.bind_of_error (Attempt.bind_of_error hheader))
    have hread : perform .readTag { state } =
        (.error found, { state := last, error? := some found }) :=
      Latch.call_of_error (Attempt.bind_of_error (State.readTag_of_header_error hheader))
    refine ⟨fun reply after hreply => ?_, fun error after herror => ?_⟩
    · cases hpeek.symm.trans hreply
    · cases hpeek.symm.trans herror
      exact hread
  · have hpeek : perform .peekTag { state } = (.ok (.tag found.1), { state := last }) :=
      Latch.call_of_ok (Attempt.bind_of_ok (State.peekTag_of_header hheader))
    have hread : perform .readTag { state } =
        (.error (.usage usage), { state := last, error? := some (.usage usage) }) :=
      Latch.call_of_error (Attempt.bind_of_error (State.readTag_of_refuses hrefuses hheader))
    refine ⟨fun reply after hreply => ?_, fun error after herror => ?_⟩
    · cases hpeek.symm.trans hreply
      exact hread
    · cases hpeek.symm.trans herror

/-- An array of one that has been given its element, with another element behind it. -/
theorem perform_readTag_refused_array :
    (perform .readTag ({ state := {
        input := [0xc0]
        nesting := { frames := [{ kind := .array, remaining := 0 }] }
        options := {}
        maxAlloc := 0 } } : Reader Bytes)).1 = .error (.usage (.tooManyElements .array)) := by
  let reader : Reader Bytes := { state := {
      input := [0xc0]
      nesting := { frames := [{ kind := .array, remaining := 0 }] }
      options := {}
      maxAlloc := 0 } }
  have hrefuses : reader.state.nesting.Refuses (.tooManyElements .array) :=
    @Nesting.Refuses.exhausted _ { kind := .array, remaining := 0 } [] rfl rfl rfl rfl rfl
  have hread := (perform_readTag_refused rfl hrefuses).1 (.tag .nil) reader rfl
  exact congrArg Prod.fst hread

/-- With nothing behind the array the same misuse passes for a truncated input. -/
theorem perform_readTag_atEnd :
    ∃ plain : Reader Bytes, ofInput {} [0x91, 0x01] = .ok plain ∧
      (plain.run [.readTag, .readTag]).2.error? = none ∧
      (plain.run [.readTag, .readTag]).2.state.nesting.Refuses (.tooManyElements .array) ∧
      (perform .readTag (plain.run [.readTag, .readTag]).2).1 = .error (.truncated 1 0) :=
  ⟨_, rfl, rfl,
    @Nesting.Refuses.exhausted _ { kind := .array, remaining := 0 } [] rfl rfl rfl rfl rfl, rfl⟩

end Reader
end MessagePack
