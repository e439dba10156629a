import MessagePack.Proofs.Truncation

/-!
Messages that can still be completed. With extensions and in the current version no header is
refused but the reserved one, so whatever a scan is waiting for can be supplied: the bytes that a
header lacks, those that its payload lacks, and the elements that are owed behind it.
-/

namespace MessagePack

variable {options : TagOptions} {buffer : Bytes}

theorem Header.accepted_unless_reserved {form : Form} (hversion : options.version = .v5)
    (hextensions : options.extensions = true) (hreserved : form ≠ .reserved) :
    refusal? options form = none := by
  refine accepted hreserved (fun hlegacy => ?_) fun _ => hextensions
  rw [hversion] at hlegacy
  cases hlegacy

/-- A header of which there is a part only can be completed, with zeros. -/
theorem Header.decode_completed (hversion : options.version = .v5)
    (hextensions : options.extensions = true) {bytes : Bytes} {wanted got : Nat}
    (hdecode : decode options bytes = .error (.truncated wanted got)) :
    ∃ more tag, more ≠ [] ∧
      decode options (bytes ++ more) = .ok (tag, (bytes ++ more).length) := by
  cases bytes with
  | nil =>
      have hnil : decode options [Form.nil.marker] = .ok (.nil, 1) :=
        decode_marker .nil [] [] rfl (accepted_plain (by simp) rfl rfl)
      exact ⟨[Form.nil.marker], .nil, List.cons_ne_nil _ _, hnil⟩
  | cons marker body =>
      have hshort : body.length < (Form.ofMarker marker).bodyLength := by
        simp only [decode, List.length_take] at hdecode
        split at hdecode
        · next hshort => omega
        · split at hdecode <;> cases hdecode
      have hreserved : Form.ofMarker marker ≠ .reserved := fun hsame => by
        rw [hsame] at hshort
        exact absurd hshort (Nat.not_lt_zero _)
      have hlength : (body ++ List.replicate ((Form.ofMarker marker).bodyLength - body.length)
          (0 : UInt8)).length = (Form.ofMarker marker).bodyLength := by
        rw [List.length_append, List.length_replicate]
        omega
      refine ⟨List.replicate ((Form.ofMarker marker).bodyLength - body.length) 0, _, ?_,
        decode_cons_iff.mpr ⟨congrArg Nat.succ hlength, Nat.le_of_eq hlength.symm,
          accepted_unless_reserved hversion hextensions hreserved, rfl⟩⟩
      rw [ne_eq, List.replicate_eq_nil_iff]
      omega

/-- As many messages as are owed, none of them with anything in it. -/
theorem Messages.nils (options : TagOptions) (count : Nat) :
    Messages options count (List.replicate count Form.nil.marker) := by
  induction count with
  | zero => exact .none
  | succ count ih =>
      have hone : Messages options 1 [Form.nil.marker] :=
        .scalar (Header.decode_marker .nil [] [] rfl (Header.accepted_plain (by simp) rfl rfl))
          rfl rfl
      have hall := hone.append ih
      rwa [Nat.add_comm, List.singleton_append, ← List.replicate_succ] at hall

/-- A part of a payload can be filled up, and what is owed behind it can be supplied. -/
theorem Messages.completed {header : Bytes} {tag : Tag}
    (hheader : Header.decode options header = .ok (tag, header.length)) (payload : Bytes)
    (hwithin : payload.length ≤ tag.payloadLength?.getD 0) (count : Nat) :
    ∃ more, Messages options (count + 1) (header ++ payload ++ more) ∧
      tag.payloadLength?.getD 0 ≤ (payload ++ more).length := by
  let missing : Bytes := List.replicate (tag.payloadLength?.getD 0 - payload.length) 0
  have hlength : (payload ++ missing).length = tag.payloadLength?.getD 0 := by
    rw [List.length_append, List.length_replicate]
    omega
  refine ⟨missing ++ List.replicate (tag.childCount?.getD 0 + count) Form.nil.marker, ?_, ?_⟩
  · have hall := Messages.enclose hheader hlength (.nils options (_ + count))
    simpa only [List.append_assoc] using hall
  · rw [← List.append_assoc, List.length_append, hlength]
    exact Nat.le_add_right _ _

/-- What a scan wants can be supplied, and with it everything that it is owed. -/
theorem Scan.Wants.completed {rest : Bytes} {scan : Scan} (hversion : options.version = .v5)
    (hextensions : options.extensions = true) (hwants : Wants options rest scan) :
    ∃ more, more ≠ [] ∧ Messages options scan.owed (rest ++ more) := by
  cases hwants with
  | header hdecode =>
      obtain ⟨missing, tag, hsome, hheader⟩ :=
        Header.decode_completed hversion hextensions hdecode
      obtain ⟨more, hmessages, -⟩ :=
        Messages.completed hheader [] (Nat.zero_le _) _
      refine ⟨missing ++ more, List.append_ne_nil_of_left_ne_nil hsome _, ?_⟩
      rwa [List.append_nil, List.append_assoc] at hmessages
  | payload hdecode hshort =>
      obtain ⟨header, body, rfl, rfl, hheader⟩ := Header.decode_split hdecode
      rw [List.length_append] at hshort
      obtain ⟨more, hmessages, henough⟩ :=
        Messages.completed hheader body (by omega) _
      refine ⟨more, fun hnone => ?_, hmessages⟩
      rw [hnone, List.append_nil] at henough
      omega

theorem messageLength_completed (hversion : options.version = .v5)
    (hextensions : options.extensions = true) (hlength : messageLength options buffer = .ok none) :
    ∃ more, more ≠ [] ∧ Messages options 1 (buffer ++ more) := by
  obtain ⟨passed, left, after, rfl, hthrough, hhalts, hadvance⟩ := Scan.resume_start options buffer
  rw [messageLength, hadvance] at hlength
  cases hhalts with
  | done hdone => rw [Scan.advance_done hdone] at hlength; cases hlength
  | wants hwants =>
      obtain ⟨more, hsome, hmessages⟩ := hwants.completed hversion hextensions
      refine ⟨more, hsome, ?_⟩
      rw [List.append_assoc]
      exact hthrough.messages hmessages
  | refuses error hrefuses => rw [hrefuses.advance] at hlength; cases hlength

/-- More is awaited exactly where more can make it a message, and a buffer is refused exactly
where nothing behind it makes a message of its front. -/
theorem messageLength_completable (hversion : options.version = .v5)
    (hextensions : options.extensions = true) (buffer : Bytes) :
    (messageLength options buffer = .ok none ↔
      ∃ more, more ≠ [] ∧ Messages options 1 (buffer ++ more)) ∧
    ((∃ error, messageLength options buffer = .error error) ↔
      ¬∃ more message rest, Messages options 1 message ∧ buffer ++ more = message ++ rest) := by
  constructor
  · refine ⟨messageLength_completed hversion hextensions, ?_⟩
    rintro ⟨more, hsome, hmessages⟩
    have hfound := messageLength_of_messages hmessages []
    rw [List.append_nil] at hfound
    exact messageLength_short hfound hsome
  · constructor
    · rintro ⟨error, hrefused⟩ ⟨more, message, rest, hmessage, hsame⟩
      have hlonger := messageLength_error_append hrefused more
      rw [hsame, messageLength_of_messages hmessage] at hlonger
      cases hlonger
    · intro hnever
      rcases hlength : messageLength options buffer with error | found
      · exact ⟨error, rfl⟩
      · cases found with
        | none =>
            obtain ⟨more, -, hmessages⟩ := messageLength_completed hversion hextensions hlength
            exact absurd ⟨more, _, [], hmessages, (List.append_nil _).symm⟩ hnever
        | some n =>
            obtain ⟨-, hmessage⟩ := messageLength_eq_some_iff.mp hlength
            refine absurd ⟨[], _, buffer.drop n, hmessage, ?_⟩ hnever
            rw [List.append_nil, List.take_append_drop]

/-- A map of one pair that breaks off inside its key, and an array whose second item is reserved. -/
theorem messageLength_completable_pieces :
    (∃ more, more ≠ [] ∧ Messages { extensions := true } 1 ([0x81, 0xd9] ++ more)) ∧
      ¬∃ more message rest, Messages { extensions := true } 1 message ∧
        [0x92, 0x01, 0xc1] ++ more = message ++ rest := by
  have hwaits : messageLength { extensions := true } [0x81, 0xd9] = .ok none := by cbv
  have hrefused : messageLength { extensions := true } [0x92, 0x01, 0xc1] =
      .error (.invalid (.reservedMarker 0xc1)) := by cbv
  exact ⟨(messageLength_completable rfl rfl _).1.mp hwaits,
    (messageLength_completable rfl rfl _).2.mp ⟨_, hrefused⟩⟩

end MessagePack
