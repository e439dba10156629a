import MessagePack.Message
import MessagePack.Proofs.Grammar

/-!
Scanning for the end of a message. A scan that has seen a part of a complete message stops
inside it, where it can go on; one that has seen all of it finds where it ends.
-/

namespace MessagePack.Scan

variable {options : TagOptions} {scan : Scan} {rest unseen : Bytes} {size : Nat}

/-- The elements still owed come next, and the message ends with them. -/
def Owes (options : TagOptions) (text : Bytes) (size : Nat) (scan : Scan) : Prop :=
  ∃ (pending : List Message) (later : Bytes), text = Message.text pending ++ later ∧
    pending.length = scan.owed ∧ (∀ message ∈ pending, message.Complete options) ∧
      scan.position + (Message.text pending).length = size

theorem Owes.first {text : Bytes} {owed : Nat} (howes : scan.Owes options text size)
    (howed : scan.owed = owed + 1) :
    ∃ header tag payload behind, text = header ++ (payload ++ behind) ∧
      Header.decode options header = .ok (tag, header.length) ∧
      payload.length = tag.payloadLength?.getD 0 ∧
      scan.position + header.length + payload.length ≤ size ∧
      Owes options behind size {
        position := scan.position + header.length + payload.length
        owed := owed + tag.childCount?.getD 0 } := by
  obtain ⟨pending, later, rfl, hlength, hcomplete, rfl⟩ := howes
  cases pending with
  | nil => rw [howed] at hlength; cases hlength
  | cons message pending =>
      cases hcomplete message (.head _) with
      | @node header tag payload children hheader hpayload hcount hchildren =>
          simp only [Message.text, Message.bytes, List.append_assoc, List.length_append]
          refine ⟨header, tag, payload, _, rfl, hheader, hpayload, by omega, children ++ pending,
            later, ?_, ?_, ?_, ?_⟩
          · rw [Message.text_append, List.append_assoc]
          · rw [howed, List.length_cons] at hlength
            rw [List.length_append]
            simp only
            omega
          · intro other hother
            rcases List.mem_append.mp hother with hchild | houter
            · exact hchildren other hchild
            · exact hcomplete other (.tail _ houter)
          · rw [Message.text_append, List.length_append]
            simp only
            omega

/-- Nothing that is owed can be refused. -/
theorem Owes.decode {owed : Nat} (howes : scan.Owes options (rest ++ unseen) size)
    (howed : scan.owed = owed + 1) :
    (∃ wanted got, Header.decode options rest = .error (.truncated wanted got) ∧
        scan.position + rest.length < size) ∨
      ∃ header tag payload left behind, rest = header ++ left ∧
        Header.decode options rest = .ok (tag, header.length) ∧
        left ++ unseen = payload ++ behind ∧ payload.length = tag.payloadLength?.getD 0 ∧
        scan.position + header.length + payload.length ≤ size ∧
        Owes options behind size {
          position := scan.position + header.length + payload.length
          owed := owed + tag.childCount?.getD 0 } := by
  obtain ⟨header, tag, payload, behind, htext, hheader, hpayload, hwithin, hafter⟩ :=
    howes.first howed
  by_cases hshort : rest.length < header.length
  · obtain ⟨wanted, got, hdecode⟩ := Header.decode_short hheader htext hshort
    exact .inl ⟨wanted, got, hdecode, by omega⟩
  · obtain ⟨left, rfl, hleft⟩ := append_split htext (Nat.le_of_not_lt hshort)
    exact .inr ⟨header, tag, payload, left, behind, rfl, Header.decode_append hheader left, hleft,
      hpayload, hwithin, hafter⟩

theorem Owes.decode_error {owed : Nat} {error : Error}
    (howes : scan.Owes options (rest ++ unseen) size) (howed : scan.owed = owed + 1)
    (herror : Header.decode options rest = .error error) :
    (∃ wanted got, error = .truncated wanted got) ∧ scan.position + rest.length < size := by
  rcases howes.decode howed with ⟨wanted, got, hdecode, hbefore⟩ | ⟨_, _, _, _, _, -, hdecode, -⟩
  · rw [herror] at hdecode
    cases hdecode
    exact ⟨⟨wanted, got, rfl⟩, hbefore⟩
  · rw [herror] at hdecode
    cases hdecode

theorem Owes.decode_ok {owed n : Nat} {tag : Tag}
    (howes : scan.Owes options (rest ++ unseen) size) (howed : scan.owed = owed + 1)
    (hdecode : Header.decode options rest = .ok (tag, n)) :
    ∃ header payload left behind, rest = header ++ left ∧ n = header.length ∧
      left ++ unseen = payload ++ behind ∧ payload.length = tag.payloadLength?.getD 0 ∧
      scan.position + header.length + payload.length ≤ size ∧
      Owes options behind size {
        position := scan.position + header.length + payload.length
        owed := owed + tag.childCount?.getD 0 } := by
  rcases howes.decode howed with ⟨_, _, herror, -⟩ |
    ⟨header, found, payload, left, behind, hrest, hfound, hbehind⟩
  · rw [hdecode] at herror
    cases herror
  · rw [hdecode] at hfound
    cases hfound
    exact ⟨header, payload, left, behind, hrest, rfl, hbehind⟩

/-- What a scan comes to: the end, or a place before it from where the scan can go on. -/
inductive Reaches (options : TagOptions) (unseen : Bytes) (size position : Nat) (rest : Bytes) :
    Option Nat → Scan → Prop
  | found {after : Scan} (hend : size ≤ position + rest.length) :
      Reaches options unseen size position rest (some size) after
  | wanting {after : Scan} (passed : Bytes) {left : Bytes} (hbefore : position + rest.length < size)
      (hrest : rest = passed ++ left) (hposition : after.position = position + passed.length)
      (howes : after.Owes options (left ++ unseen) size) :
      Reaches options unseen size position rest none after

theorem Reaches.behind {position : Nat} {passed left : Bytes} {result : Option Nat}
    {after : Scan}
    (hreaches : Reaches options unseen size (position + passed.length) left result after) :
    Reaches options unseen size position (passed ++ left) result after := by
  cases hreaches with
  | found hend =>
      refine .found ?_
      rw [List.length_append]
      omega
  | wanting more hbefore hrest hposition howes =>
      refine .wanting (passed ++ more) ?_ ?_ ?_ howes
      · rw [List.length_append]
        omega
      · rw [hrest, List.append_assoc]
      · rw [hposition, List.length_append, Nat.add_assoc]

theorem advance_owes (howes : scan.Owes options (rest ++ unseen) size) :
    ∃ found after, advance options rest scan = (.ok found, after) ∧
      Reaches options unseen size scan.position rest found after := by
  fun_induction advance options rest scan with
  | case1 rest scan howed =>
      obtain ⟨pending, later, -, hlength, -, rfl⟩ := howes
      rw [howed] at hlength
      rw [List.eq_nil_of_length_eq_zero hlength]
      exact ⟨_, _, rfl, .found (Nat.le_add_right _ _)⟩
  | case2 rest scan owed howed wanted got herror =>
      obtain ⟨-, hbefore⟩ := howes.decode_error howed herror
      exact ⟨none, scan, rfl, .wanting [] hbefore rfl rfl howes⟩
  | case3 rest scan owed howed error hother herror =>
      obtain ⟨⟨wanted, got, rfl⟩, -⟩ := howes.decode_error howed herror
      exact absurd rfl (hother wanted got)
  | case4 rest scan owed howed tag n hdecode body length hlength henough ih =>
      obtain ⟨header, payload, left, behind, rfl, rfl, hleft, hpayload, -, hafter⟩ :=
        howes.decode_ok howed hdecode
      rw [hlength, Option.getD_some] at hpayload
      rw [Tag.childCount_of_payload hlength] at hafter
      subst hpayload
      simp only [body, List.drop_left] at henough ih ⊢
      rw [hasAtLeast_iff] at henough
      obtain ⟨more, rfl, hmore⟩ := append_split hleft henough
      rw [← hmore] at hafter
      rw [List.drop_left] at ih ⊢
      obtain ⟨result, after, hadvance, hreaches⟩ := ih hafter
      exact ⟨result, after, hadvance, hreaches.behind.behind⟩
  | case5 rest scan owed howed tag n hdecode body length hlength henough =>
      obtain ⟨header, payload, left, behind, rfl, rfl, hleft, hpayload, hwithin, -⟩ :=
        howes.decode_ok howed hdecode
      rw [hlength, Option.getD_some] at hpayload
      simp only [body, List.drop_left, hasAtLeast_iff] at henough
      refine ⟨none, scan, rfl, .wanting [] ?_ rfl rfl howes⟩
      rw [List.length_append]
      omega
  | case6 rest scan owed howed tag n hdecode body hlength ih =>
      obtain ⟨header, payload, left, behind, rfl, rfl, hleft, hpayload, -, hafter⟩ :=
        howes.decode_ok howed hdecode
      rw [hlength] at hpayload
      rw [List.eq_nil_of_length_eq_zero hpayload] at hleft hafter
      rw [← show left ++ unseen = behind from hleft] at hafter
      simp only [body, List.drop_left] at ih ⊢
      obtain ⟨result, after, hadvance, hreaches⟩ := ih hafter
      exact ⟨result, after, hadvance, hreaches.behind⟩

end MessagePack.Scan
