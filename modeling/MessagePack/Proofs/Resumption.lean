import MessagePack.Proofs.Scanning

/-!
Scanning on. A scan passes whole elements until nothing is owed, more is wanted or a header is
refused. What it has passed it never looks at again, so a scan that wants more can be taken up on
a longer buffer, and what it finds are complete messages.
-/

namespace MessagePack

/-- A header that is all there is refused for good. -/
theorem Header.decode_error_append {options : TagOptions} {bytes : Bytes} {error : Error}
    (hdecode : decode options bytes = .error error)
    (hthere : ∀ wanted got, error ≠ .truncated wanted got) (more : Bytes) :
    decode options (bytes ++ more) = .error error := by
  cases bytes with
  | nil =>
      cases hdecode
      exact absurd rfl (hthere 1 0)
  | cons marker body =>
      simp only [decode, List.length_take] at hdecode
      split at hdecode
      · cases hdecode
        exact absurd rfl (hthere _ _)
      · next hlength =>
          have hbody : (Form.ofMarker marker).bodyLength ≤ body.length := by omega
          have htake : (body ++ more).take (Form.ofMarker marker).bodyLength =
              body.take (Form.ofMarker marker).bodyLength :=
            List.take_append_of_le_length hbody
          simp only [decode, List.cons_append, htake, List.length_take, hlength, if_false]
          exact hdecode

namespace Scan

variable {options : TagOptions} {scan next after : Scan} {rest left element passed : Bytes}
  {error : Error}

/-- The element, a header and its payload, takes the scan from here to there. -/
inductive Passes (options : TagOptions) : Scan → Bytes → Scan → Prop
  | element {position owed : Nat} {header payload : Bytes} {tag : Tag}
      (hheader : Header.decode options header = .ok (tag, header.length))
      (hpayload : payload.length = tag.payloadLength?.getD 0) :
      Passes options { position, owed := owed + 1 } (header ++ payload) {
        position := position + header.length + payload.length
        owed := owed + tag.childCount?.getD 0 }

/-- The next element is not all there. -/
inductive Wants (options : TagOptions) (rest : Bytes) : Scan → Prop
  | header {position owed wanted got : Nat}
      (hdecode : Header.decode options rest = .error (.truncated wanted got)) :
      Wants options rest { position, owed := owed + 1 }
  | payload {position owed size : Nat} {tag : Tag}
      (hdecode : Header.decode options rest = .ok (tag, size))
      (hshort : rest.length < size + tag.payloadLength?.getD 0) :
      Wants options rest { position, owed := owed + 1 }

/-- The next header is refused. -/
inductive Refuses (options : TagOptions) (rest : Bytes) (error : Error) : Scan → Prop
  | header {position owed : Nat} (hdecode : Header.decode options rest = .error error)
      (hthere : ∀ wanted got, error ≠ .truncated wanted got) :
      Refuses options rest error { position, owed := owed + 1 }

theorem advance_of_ok {position owed size : Nat} {tag : Tag}
    (hdecode : Header.decode options rest = .ok (tag, size)) :
    advance options rest { position, owed := owed + 1 } =
      match tag.payloadLength? with
      | some length =>
          if hasAtLeast length (rest.drop size) then
            advance options ((rest.drop size).drop length)
              { position := position + size + length, owed }
          else
            (.ok none, { position, owed := owed + 1 })
      | none =>
          advance options (rest.drop size)
            { position := position + size, owed := owed + tag.childCount?.getD 0 } := by
  rw [Scan.advance]
  simp only
  split
  · next hfound => rw [hdecode] at hfound; cases hfound
  · next hfound => rw [hdecode] at hfound; cases hfound
  · next hfound =>
      rw [hdecode] at hfound
      cases hfound
      rfl

theorem Passes.advance (hpasses : Passes options scan element next) (left : Bytes) :
    advance options (element ++ left) scan = advance options left next := by
  cases hpasses with
  | @element position owed header payload tag hheader hpayload =>
      have hdecode : Header.decode options (header ++ payload ++ left) =
          .ok (tag, header.length) := by
        rw [List.append_assoc]
        exact Header.decode_append hheader _
      have hdrop : (header ++ payload ++ left).drop header.length = payload ++ left := by
        rw [List.append_assoc, List.drop_left]
      rw [advance_of_ok hdecode, hdrop]
      split
      · next length hlength =>
          rw [hlength, Option.getD_some] at hpayload
          subst hpayload
          rw [if_pos (by simp), List.drop_left, Tag.childCount_of_payload hlength]
          rfl
      · next hlength =>
          rw [hlength] at hpayload
          rw [List.eq_nil_of_length_eq_zero hpayload]
          rfl

theorem Wants.advance (hwants : Wants options rest scan) :
    advance options rest scan = (.ok none, scan) := by
  cases hwants with
  | header hdecode =>
      rw [Scan.advance]
      simp only
      split
      · rfl
      · next hthere hfound =>
          rw [hdecode] at hfound
          cases hfound
          exact absurd rfl (hthere _ _)
      · next hfound => rw [hdecode] at hfound; cases hfound
  | payload hdecode hshort =>
      have hsize := Header.decode_size_pos hdecode
      rw [advance_of_ok hdecode]
      split
      · next length hlength =>
          rw [hlength, Option.getD_some] at hshort
          rw [if_neg (by rw [hasAtLeast_iff, List.length_drop]; omega)]
      · next hlength =>
          rw [hlength, Option.getD_none] at hshort
          omega

theorem Refuses.advance (hrefuses : Refuses options rest error scan) :
    advance options rest scan = (.error error, scan) := by
  cases hrefuses with
  | header hdecode hthere =>
      rw [Scan.advance]
      simp only
      split
      · next hfound =>
          rw [hdecode] at hfound
          cases hfound
          exact absurd rfl (hthere _ _)
      · next hfound =>
          rw [hdecode] at hfound
          cases hfound
          rfl
      · next hfound => rw [hdecode] at hfound; cases hfound

theorem Refuses.append (hrefuses : Refuses options rest error scan) (more : Bytes) :
    Refuses options (rest ++ more) error scan := by
  cases hrefuses with
  | header hdecode hthere =>
      exact .header (Header.decode_error_append hdecode hthere more) hthere

theorem advance_done (hdone : scan.owed = 0) (rest : Bytes) :
    advance options rest scan = (.ok (some scan.position), scan) := by
  obtain ⟨position, owed⟩ := scan
  subst hdone
  rw [Scan.advance]

/-- One element after the other takes the scan from here to there. -/
inductive Through (options : TagOptions) : Scan → Bytes → Scan → Prop
  | here (scan : Scan) : Through options scan [] scan
  | element {scan next after : Scan} {element passed : Bytes}
      (hpasses : Passes options scan element next) (hthrough : Through options next passed after) :
      Through options scan (element ++ passed) after

theorem Through.advance (hthrough : Through options scan passed after) (left : Bytes) :
    advance options (passed ++ left) scan = advance options left after := by
  induction hthrough with
  | here => rfl
  | element hpasses _ ih => rw [List.append_assoc, hpasses.advance, ih]

theorem Through.position (hthrough : Through options scan passed after) :
    after.position = scan.position + passed.length := by
  induction hthrough with
  | here => rfl
  | element hpasses _ ih =>
      cases hpasses
      rw [ih, List.length_append, List.length_append]
      simp only
      omega

/-- The messages that are owed at the end complete those that are owed at the beginning. -/
theorem Through.messages (hthrough : Through options scan passed after) {text : Bytes}
    (hmessages : Messages options after.owed text) :
    Messages options scan.owed (passed ++ text) := by
  induction hthrough with
  | here => exact hmessages
  | element hpasses _ ih =>
      cases hpasses with
      | element hheader hpayload =>
          rw [List.append_assoc]
          refine .enclose hheader hpayload ?_
          rw [Nat.add_comm]
          exact ih hmessages

/-- A scan that has passed what it can: nothing is owed, more is wanted, or a header is refused. -/
inductive Halts (options : TagOptions) (rest : Bytes) (scan : Scan) : Prop
  | done (hdone : scan.owed = 0)
  | wants (hwants : Wants options rest scan)
  | refuses (error : Error) (hrefuses : Refuses options rest error scan)

theorem halts_or_passes (options : TagOptions) (rest : Bytes) (scan : Scan) :
    Halts options rest scan ∨
      ∃ element left next, rest = element ++ left ∧ 0 < element.length ∧
        Passes options scan element next := by
  obtain ⟨position, owed⟩ := scan
  cases owed with
  | zero => exact .inl (.done rfl)
  | succ owed =>
      cases hdecode : Header.decode options rest with
      | error error =>
          cases error with
          | truncated wanted got => exact .inl (.wants (.header hdecode))
          | _ => exact .inl (.refuses _ (.header hdecode fun _ _ hsame => by cases hsame))
      | ok found =>
          obtain ⟨tag, size⟩ := found
          by_cases hshort : rest.length < size + tag.payloadLength?.getD 0
          · exact .inl (.wants (.payload hdecode hshort))
          · have hsize := Header.decode_size_pos hdecode
            obtain ⟨header, body, rfl, rfl, hheader⟩ := Header.decode_split hdecode
            rw [List.length_append] at hshort
            refine .inr ⟨header ++ body.take (tag.payloadLength?.getD 0),
              body.drop (tag.payloadLength?.getD 0), _, ?_, ?_, .element hheader ?_⟩
            · rw [List.append_assoc, List.take_append_drop]
            · rw [List.length_append]
              omega
            · rw [List.length_take]
              omega

/-- Every scan passes as many elements as there are, and halts. -/
theorem exists_through (options : TagOptions) (rest : Bytes) (scan : Scan) :
    ∃ passed left after, rest = passed ++ left ∧ Through options scan passed after ∧
      Halts options left after := by
  induction hlength : rest.length using Nat.strongRecOn generalizing rest scan with
  | ind length ih =>
      rcases halts_or_passes options rest scan with
        hhalts | ⟨element, left, next, rfl, hpositive, hpasses⟩
      · exact ⟨[], rest, scan, rfl, .here scan, hhalts⟩
      · rw [List.length_append] at hlength
        obtain ⟨passed, behind, after, rfl, hthrough, hhalts⟩ :=
          ih left.length (by omega) left next rfl
        exact ⟨element ++ passed, behind, after, by rw [List.append_assoc],
          .element hpasses hthrough, hhalts⟩

/-! A scan that was begun at the front of a buffer. -/

/-- The scan has passed some of the buffer, from the front on. -/
def Scanned (options : TagOptions) (buffer : Bytes) (scan : Scan) : Prop :=
  ∃ passed left, buffer = passed ++ left ∧ Through options {} passed scan

variable {buffer : Bytes}

theorem scanned_start (options : TagOptions) (buffer : Bytes) : Scanned options buffer {} :=
  ⟨[], buffer, rfl, .here _⟩

theorem Scanned.append (hscanned : Scanned options buffer scan) (more : Bytes) :
    Scanned options (buffer ++ more) scan := by
  obtain ⟨passed, left, rfl, hthrough⟩ := hscanned
  exact ⟨passed, left ++ more, by rw [List.append_assoc], hthrough⟩

/-- A scan that is taken up comes to what a scan from the front comes to. -/
theorem Scanned.resume (hscanned : Scanned options buffer scan) :
    resume options buffer scan = resume options buffer {} := by
  obtain ⟨passed, left, rfl, hthrough⟩ := hscanned
  have hposition : scan.position = passed.length := by
    rw [hthrough.position]
    exact Nat.zero_add _
  rw [Scan.resume, hposition, List.drop_left, Scan.resume, List.drop_zero, hthrough.advance]

/-- What a scan from the front comes to, and where it stands then. -/
theorem resume_start (options : TagOptions) (buffer : Bytes) :
    ∃ passed left after, buffer = passed ++ left ∧ Through options {} passed after ∧
      Halts options left after ∧
        Scan.resume options buffer {} = advance options left after := by
  obtain ⟨passed, left, after, rfl, hthrough, hhalts⟩ := exists_through options buffer {}
  refine ⟨passed, left, after, rfl, hthrough, hhalts, ?_⟩
  rw [Scan.resume, List.drop_zero, hthrough.advance]

/-- Whatever a scan comes to, it stands behind what it has passed. -/
theorem scanned_after (options : TagOptions) (buffer : Bytes) :
    Scanned options buffer (Scan.resume options buffer {}).2 := by
  obtain ⟨passed, left, after, rfl, hthrough, hhalts, hadvance⟩ := resume_start options buffer
  have hafter : (Scan.resume options (passed ++ left) {}).2 = after := by
    rw [hadvance]
    cases hhalts with
    | done hdone => rw [advance_done hdone]
    | wants hwants => rw [hwants.advance]
    | refuses error hrefuses => rw [hrefuses.advance]
  rw [hafter]
  exact ⟨passed, left, rfl, hthrough⟩

end Scan

variable {options : TagOptions} {buffer : Bytes} {n : Nat}

/-- The length of a message is found exactly where a complete message stands. -/
theorem messageLength_eq_some_iff :
    messageLength options buffer = .ok (some n) ↔
      n ≤ buffer.length ∧ Messages options 1 (buffer.take n) := by
  constructor
  · intro hlength
    obtain ⟨passed, left, after, rfl, hthrough, hhalts, hadvance⟩ :=
      Scan.resume_start options buffer
    rw [messageLength, hadvance] at hlength
    cases hhalts with
    | done hdone =>
        rw [Scan.advance_done hdone] at hlength
        have hposition : after.position = passed.length := by
          rw [hthrough.position]
          exact Nat.zero_add _
        have hmessages : Messages options 1 (passed ++ []) :=
          hthrough.messages (by rw [hdone]; exact .none)
        cases hlength
        rw [hposition, List.take_left]
        rw [List.append_nil] at hmessages
        exact ⟨by rw [List.length_append]; exact Nat.le_add_right _ _, hmessages⟩
    | wants hwants => rw [hwants.advance] at hlength; cases hlength
    | refuses error hrefuses => rw [hrefuses.advance] at hlength; cases hlength
  · rintro ⟨hwithin, messages, hcount, hcomplete, htext⟩
    have howes : Scan.Owes options (buffer ++ []) n {} := by
      refine ⟨messages, buffer.drop n, ?_, hcount, hcomplete, ?_⟩
      · rw [htext, List.append_nil, List.take_append_drop]
      · rw [htext, List.length_take_of_le hwithin]
        exact Nat.zero_add n
    obtain ⟨found, after, hadvance, hreaches⟩ := Scan.advance_owes howes
    rw [messageLength, Scan.resume, List.drop_zero, hadvance]
    cases hreaches with
    | found hend => rfl
    | wanting passed hbefore hrest hposition howed =>
        simp only at hbefore
        omega

/-- A whole message is found, and nothing behind it is looked at. -/
theorem messageLength_of_messages {message : Bytes} (hmessage : Messages options 1 message)
    (rest : Bytes) :
    messageLength options (message ++ rest) = .ok (some message.length) := by
  rw [messageLength_eq_some_iff, List.length_append, List.take_left]
  exact ⟨Nat.le_add_right _ _, hmessage⟩

/-! What has been found or refused is so in every longer buffer. -/

theorem messageLength_append (hlength : messageLength options buffer = .ok (some n))
    (more : Bytes) : messageLength options (buffer ++ more) = .ok (some n) := by
  rw [messageLength_eq_some_iff] at hlength ⊢
  obtain ⟨hwithin, hmessages⟩ := hlength
  rw [List.take_append_of_le_length hwithin, List.length_append]
  exact ⟨by omega, hmessages⟩

theorem messageLength_error_append {error : Error}
    (hlength : messageLength options buffer = .error error) (more : Bytes) :
    messageLength options (buffer ++ more) = .error error := by
  obtain ⟨passed, left, after, rfl, hthrough, hhalts, hadvance⟩ :=
    Scan.resume_start options buffer
  rw [messageLength, hadvance] at hlength
  cases hhalts with
  | done hdone => rw [Scan.advance_done hdone] at hlength; cases hlength
  | wants hwants => rw [hwants.advance] at hlength; cases hlength
  | refuses other hrefuses =>
      rw [hrefuses.advance] at hlength
      cases hlength
      rw [messageLength, Scan.resume, List.drop_zero, List.append_assoc, hthrough.advance,
        (hrefuses.append more).advance]

/-! How much can be owed. -/

theorem Tag.childCount_lt (tag : Tag) : tag.childCount?.getD 0 < 2 * UInt32.size := by
  have hzero : 0 < 2 * UInt32.size := by decide
  cases tag with
  | array count =>
      have hcount : count.toNat < UInt32.size := count.toNat_lt
      simp only [Tag.childCount?, Option.getD_some]
      omega
  | map pairs =>
      have hpairs : pairs.toNat < UInt32.size := pairs.toNat_lt
      simp only [Tag.childCount?, Option.getD_some]
      omega
  | _ => exact hzero

/-- Only a header of five bytes announces more children than a word of two bytes can count. -/
theorem Header.childCount_tag (float : FloatMode) {word : Bytes} (form : Form)
    (hword : word.length ≤ form.bodyLength) :
    (Header.tag float word form).childCount?.getD 0 < 2 * UInt16.size ∨
      5 ≤ form.bodyLength + 1 := by
  have hnone : 0 < 2 * UInt16.size := by decide
  have hfew {n : Nat} (hn : n < UInt16.size) : (UInt32.ofNat n).toNat < UInt16.size :=
    Nat.lt_of_le_of_lt (Nat.mod_le _ _) hn
  have hshort (hlength : word.length ≤ 2) : ofBigEndian word < UInt16.size :=
    Nat.lt_of_lt_of_le (ofBigEndian_lt word) (Nat.pow_le_pow_right (n := 256) (by decide) hlength)
  cases form with
  | fixMap pairs =>
      have hpairs := hfew (Nat.lt_trans pairs.isLt (by decide))
      simp only [Header.tag, Tag.childCount?, Option.getD_some]
      omega
  | fixArray count =>
      have hcount := hfew (Nat.lt_trans count.isLt (by decide))
      simp only [Header.tag, Tag.childCount?, Option.getD_some]
      omega
  | array k =>
      rcases k with ⟨_ | _ | k, hk⟩
      · have hcount := hfew (hshort hword)
        simp only [Header.tag, Tag.childCount?, Option.getD_some]
        omega
      · exact .inr (Nat.le_refl _)
      · omega
  | map k =>
      rcases k with ⟨_ | _ | k, hk⟩
      · have hpairs := hfew (hshort hword)
        simp only [Header.tag, Tag.childCount?, Option.getD_some]
        omega
      · exact .inr (Nat.le_refl _)
      · omega
  | float | double => cases float <;> exact .inl hnone
  | _ => exact .inl hnone

theorem Header.childCount_le {bytes : Bytes} {tag : Tag} {n : Nat}
    (hdecode : decode options bytes = .ok (tag, n)) :
    5 * tag.childCount?.getD 0 ≤ 2 * UInt32.size * n := by
  cases bytes with
  | nil => cases hdecode
  | cons marker body =>
      obtain ⟨rfl, -, -, hfound⟩ := decode_cons_iff.mp hdecode
      have hlt := tag.childCount_lt
      rcases childCount_tag options.float (Form.ofMarker marker)
        (List.length_take_le _ body) with hfew | hlong
      · rw [← hfound] at hfew
        have hone : 2 * UInt32.size * 1 ≤ 2 * UInt32.size * size marker :=
          Nat.mul_le_mul_left _ (Nat.succ_pos _)
        have hsmall : 5 * (2 * UInt16.size) ≤ 2 * UInt32.size := by decide
        omega
      · have hfive : 2 * UInt32.size * 5 ≤ 2 * UInt32.size * size marker :=
          Nat.mul_le_mul_left _ hlong
        omega

namespace Scan

variable {scan after : Scan} {passed : Bytes}

/-- What is owed grows with the bytes that have been passed. -/
theorem Through.owed_le (hthrough : Through options scan passed after)
    (howed : 5 * scan.owed ≤ 5 + 2 * UInt32.size * scan.position) :
    5 * after.owed ≤ 5 + 2 * UInt32.size * after.position := by
  induction hthrough with
  | here => exact howed
  | element hpasses _ ih =>
      refine ih ?_
      cases hpasses with
      | @element position owed header payload tag hheader hpayload =>
          have hcount := Header.childCount_le hheader
          simp only [Nat.mul_add] at howed ⊢
          omega

/-- In a buffer of less than 2 ^ 33 bytes a count of 64 bits does not wrap around. -/
theorem Scanned.owed_lt {buffer : Bytes} (hscanned : Scanned options buffer scan)
    (hlength : buffer.length < 2 * UInt32.size) : scan.owed < UInt64.size := by
  obtain ⟨passed, left, rfl, hthrough⟩ := hscanned
  have howed := hthrough.owed_le (show 5 * 1 ≤ 5 + 2 * UInt32.size * 0 by omega)
  have hposition : scan.position = passed.length := by
    rw [hthrough.position]
    exact Nat.zero_add _
  have hsize : UInt32.size = 4294967296 := rfl
  have hword : UInt64.size = 18446744073709551616 := rfl
  rw [List.length_append] at hlength
  rw [hsize] at howed
  omega

theorem owed_resume_lt {buffer : Bytes} (hlength : buffer.length < UInt32.size) :
    (resume options buffer {}).2.owed < UInt64.size :=
  (scanned_after options buffer).owed_lt (Nat.lt_of_lt_of_le hlength (by decide))

end Scan

end MessagePack
