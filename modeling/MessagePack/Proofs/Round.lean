import MessagePack.Proofs.Resumption
import MessagePack.Tree.Stream

/-!
A round at the buffer of a stream. What it comes to is decided by what a scan finds at the front
of the buffer, and the source is left alone.
-/

namespace MessagePack

theorem messageLength_nil (options : TagOptions) : messageLength options [] = .ok none := by
  have hwants : Scan.Wants options [] {} := .header rfl
  rw [messageLength, Scan.resume, List.drop_nil, hwants.advance]

namespace Stream.State

variable {config : Config} {state : State}

/-- What a round comes to, by what there is at the front of the buffer. -/
inductive Concludes (config : Config) (state : State) : Except Error Round → State → Prop
  | refused {error : Error} {scan : Scan}
      (hlength : messageLength config.tagOptions state.buffer = .error error)
      (hscanned : scan.Scanned config.tagOptions state.buffer) :
      Concludes config state (.error error) { state with scan }
  | message {n : Nat} (hlength : messageLength config.tagOptions state.buffer = .ok (some n)) :
      Concludes config state (.ok (.message (state.buffer.take n)))
        { state with buffer := state.buffer.drop n, scan := {} }
  | oversized {scan : Scan} (hlength : messageLength config.tagOptions state.buffer = .ok none)
      (hscanned : scan.Scanned config.tagOptions state.buffer)
      (hsize : config.maxSize < state.buffer.length) :
      Concludes config state (.error (.tooBig state.buffer.length config.maxSize))
        { state with scan }
  | short {scan : Scan} (hlength : messageLength config.tagOptions state.buffer = .ok none)
      (hscanned : scan.Scanned config.tagOptions state.buffer)
      (hsize : state.buffer.length ≤ config.maxSize) (hended : state.ended = true)
      (hsome : state.buffer ≠ []) :
      Concludes config state
        (.error (.truncated (state.buffer.length + 1) state.buffer.length)) { state with scan }
  | exhausted {scan : Scan} (hscanned : scan.Scanned config.tagOptions state.buffer)
      (hended : state.ended = true) (hempty : state.buffer = []) :
      Concludes config state (.ok .exhausted) { state with scan }
  | wanting {scan : Scan} (hlength : messageLength config.tagOptions state.buffer = .ok none)
      (hscanned : scan.Scanned config.tagOptions state.buffer)
      (hsize : state.buffer.length ≤ config.maxSize) (hopen : state.ended = false) :
      Concludes config state (.ok .wanting) { state with scan }

/-- A scan of the buffer, empty or not, finds what there is at its front. -/
theorem scan_buffer (hscanned : state.scan.Scanned config.tagOptions state.buffer) :
    ∃ scan, (if state.buffer = [] then (.ok none, state.scan)
        else Scan.resume config.tagOptions state.buffer state.scan) =
          (messageLength config.tagOptions state.buffer, scan) ∧
      scan.Scanned config.tagOptions state.buffer := by
  by_cases hempty : state.buffer = []
  · refine ⟨state.scan, ?_, hscanned⟩
    rw [if_pos hempty, hempty, messageLength_nil]
  · rw [if_neg hempty, hscanned.resume]
    exact ⟨_, rfl, Scan.scanned_after _ _⟩

theorem cut_concludes (hconfigured : state.config = config)
    (hscanned : state.scan.Scanned config.tagOptions state.buffer) :
    Concludes config state state.cut.1 state.cut.2 := by
  subst hconfigured
  obtain ⟨scan, hscan, hafter⟩ := scan_buffer hscanned
  simp only [cut, hscan]
  cases hlength : messageLength state.config.tagOptions state.buffer with
  | error error => exact .refused hlength hafter
  | ok found =>
      cases found with
      | some n => exact .message hlength
      | none =>
          by_cases hbig : state.config.maxSize < state.buffer.length
          · simp only [if_pos hbig]
            exact .oversized hlength hafter hbig
          · have hsize : state.buffer.length ≤ state.config.maxSize := Nat.le_of_not_lt hbig
            simp only [if_neg hbig]
            by_cases hended : state.ended = true
            · have hover : ¬(!state.ended) = true := by rw [hended]; decide
              simp only [if_neg hover]
              by_cases hempty : state.buffer = []
              · simp only [if_pos hempty]
                exact .exhausted hafter hended hempty
              · simp only [if_neg hempty]
                exact .short hlength hafter hsize hended hempty
            · rw [Bool.not_eq_true] at hended
              have hopen : (!state.ended) = true := by rw [hended]; rfl
              simp only [if_pos hopen]
              exact .wanting hlength hafter hsize hended

end Stream.State
end MessagePack
