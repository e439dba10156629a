import Mathlib.Data.List.Chain
import Mathlib.Order.Bounds.Basic
import MessagePack.Proofs.Resumption

/-!
Element boundaries. A scan that is taken up on one buffer after the other finds in each of them
what a scan from its front finds, and stands where that one stands: at the end of the last element
that is all there.
-/

namespace MessagePack

variable {options : TagOptions}

/-- A header with the payload that it announces. The children of an array or a map are elements
of their own. -/
def IsElement (options : TagOptions) (bytes : Bytes) : Prop :=
  ∃ header tag payload, bytes = header ++ payload ∧
    Header.decode options header = .ok (tag, header.length) ∧
    payload.length = tag.payloadLength?.getD 0

/-- So many bytes of the buffer, from its front on, are elements one after the other. -/
def Boundary (options : TagOptions) (buffer : Bytes) (n : Nat) : Prop :=
  ∃ (elements : List Bytes) (rest : Bytes), (∀ element ∈ elements, IsElement options element) ∧
    elements.flatten ++ rest = buffer ∧ elements.flatten.length = n

/-- Of two elements at one place each is the other. -/
theorem IsElement.unique {first second rest later : Bytes} (hfirst : IsElement options first)
    (hsecond : IsElement options second) (hsame : first ++ rest = second ++ later) :
    first = second ∧ rest = later := by
  obtain ⟨header, tag, payload, rfl, hheader, hpayload⟩ := hfirst
  obtain ⟨start, other, content, rfl, hstart, hcontent⟩ := hsecond
  rw [List.append_assoc, List.append_assoc] at hsame
  obtain ⟨rfl, rfl, hbehind⟩ := Header.decode_unique hheader hstart hsame
  obtain ⟨rfl, rfl⟩ := List.append_inj hbehind (hpayload.trans hcontent.symm)
  exact ⟨rfl, rfl⟩

namespace Scan

variable {scan next after : Scan} {buffer element passed left : Bytes}

theorem Passes.isElement (hpasses : Passes options scan element next) :
    IsElement options element := by
  cases hpasses with
  | element hheader hpayload => exact ⟨_, _, _, rfl, hheader, hpayload⟩

theorem Through.elements (hthrough : Through options scan passed after) :
    ∃ elements : List Bytes, (∀ element ∈ elements, IsElement options element) ∧
      elements.flatten = passed := by
  induction hthrough with
  | here => exact ⟨[], fun _ hnone => absurd hnone List.not_mem_nil, rfl⟩
  | element hpasses _ ih =>
      obtain ⟨elements, helements, rfl⟩ := ih
      refine ⟨_ :: elements, ?_, rfl⟩
      intro element hmember
      rcases List.mem_cons.mp hmember with rfl | hmember
      · exact hpasses.isElement
      · exact helements element hmember

/-- No element is all there where a scan wants more. -/
theorem Wants.not_isElement {rest : Bytes} (hwants : Wants options (element ++ rest) scan) :
    ¬IsElement options element := by
  rintro ⟨header, tag, payload, rfl, hheader, hpayload⟩
  have hthere := Header.decode_append hheader (payload ++ rest)
  rw [← List.append_assoc] at hthere
  cases hwants with
  | header hdecode =>
      rw [hthere] at hdecode
      cases hdecode
  | payload hdecode hshort =>
      rw [hthere] at hdecode
      cases hdecode
      simp only [List.length_append] at hshort
      omega

/-- Elements from the front on do not reach further than a scan that wants more. -/
theorem Through.furthest (hthrough : Through options scan passed after)
    (hwants : Wants options left after) {elements : List Bytes} {rest : Bytes}
    (helements : ∀ element ∈ elements, IsElement options element)
    (hsame : elements.flatten ++ rest = passed ++ left) :
    elements.flatten.length ≤ passed.length := by
  induction hthrough generalizing elements with
  | here =>
      cases elements with
      | nil => exact Nat.le_refl _
      | cons first others =>
          rw [List.flatten_cons, List.append_assoc, List.nil_append] at hsame
          rw [← hsame] at hwants
          exact absurd (helements first (.head _)) hwants.not_isElement
  | element hpasses _ ih =>
      cases elements with
      | nil => exact Nat.zero_le _
      | cons first others =>
          rw [List.flatten_cons, List.append_assoc, List.append_assoc] at hsame
          obtain ⟨rfl, hothers⟩ :=
            (helements first (.head _)).unique hpasses.isElement hsame
          have hle := ih hwants (fun other hmember => helements other (.tail _ hmember)) hothers
          simp only [List.flatten_cons, List.length_append]
          omega

/-- A scan that wants more stands at the last boundary. -/
theorem isGreatest_resume (hwanting : messageLength options buffer = .ok none) :
    IsGreatest {n | Boundary options buffer n} (resume options buffer {}).2.position := by
  obtain ⟨passed, left, after, rfl, hthrough, hhalts, hadvance⟩ := resume_start options buffer
  rw [messageLength, hadvance] at hwanting
  have hposition : after.position = passed.length := by
    rw [hthrough.position]
    exact Nat.zero_add _
  cases hhalts with
  | done hdone => rw [advance_done hdone] at hwanting; cases hwanting
  | refuses error hrefuses => rw [hrefuses.advance] at hwanting; cases hwanting
  | wants hwants =>
      rw [hadvance, hwants.advance, hposition]
      constructor
      · obtain ⟨elements, helements, hpassed⟩ := hthrough.elements
        exact ⟨elements, left, helements, by rw [hpassed], by rw [hpassed]⟩
      · rintro n ⟨elements, rest, helements, hsame, rfl⟩
        exact hthrough.furthest hwants helements hsame

/-- Take a scan up on one buffer after the other: what it finds in each, and where it stands
then. -/
def resumeAll (options : TagOptions) : List Bytes → Scan →
    List (Except Error (Option Nat) × Scan)
  | [], _ => []
  | buffer :: buffers, scan =>
      resume options buffer scan :: resumeAll options buffers (resume options buffer scan).2

/-- The induction: before each buffer, the scan has passed some of it from the front on. -/
theorem resumeAll_of_scanned {buffers : List Bytes} (hchain : buffers.IsChain (· <+: ·))
    (hscanned : ∀ buffer ∈ buffers.head?, Scanned options buffer scan)
    (hwanting : ∀ step ∈ (resumeAll options buffers scan).dropLast, step.1 = .ok none) :
    resumeAll options buffers scan = buffers.map fun buffer => resume options buffer {} := by
  induction buffers generalizing scan with
  | nil => rfl
  | cons buffer buffers ih =>
      have hfront : resume options buffer scan = resume options buffer {} :=
        (hscanned buffer rfl).resume
      cases buffers with
      | nil => rw [resumeAll, hfront]; rfl
      | cons longer others =>
          obtain ⟨⟨more, rfl⟩, hothers⟩ := List.isChain_cons_cons.mp hchain
          rw [resumeAll, hfront] at hwanting ⊢
          rw [List.map_cons]
          apply congrArg
          apply ih hothers
          · intro again hagain
            cases hagain
            exact (scanned_after options buffer).append more
          · intro step hstep
            exact hwanting step (List.mem_cons_of_mem _ hstep)

/-- What a scan finds in each of the buffers is what is found from the front, and where it stands
is decided by the buffer alone. As long as it finds nothing that is the end of the last element
that is all there, and no count on the way needs more than 64 bits. -/
theorem resumeAll_chain {buffers : List Bytes} (hchain : buffers.IsChain (· <+: ·))
    (hlengths : ∀ buffer ∈ buffers, buffer.length < 2 * UInt32.size)
    (hwanting : ∀ step ∈ (resumeAll options buffers {}).dropLast, step.1 = .ok none) :
    resumeAll options buffers {} =
        buffers.map (fun buffer =>
          (messageLength options buffer, (resume options buffer {}).2)) ∧
      ∀ buffer ∈ buffers,
        (messageLength options buffer = .ok none →
          IsGreatest {n | Boundary options buffer n} (resume options buffer {}).2.position) ∧
        ∀ scan, Scanned options buffer scan → scan.owed < UInt64.size := by
  refine ⟨?_, fun buffer hmember => ⟨isGreatest_resume, fun scan hscanned => ?_⟩⟩
  · exact resumeAll_of_scanned hchain (fun buffer _ => scanned_start options buffer) hwanting
  · exact hscanned.owed_lt (hlengths buffer hmember)

/-- An array of a str, a word and nil that is cut in the str and in the word. -/
theorem resumeAll_chain_pieces :
    resumeAll {} [[0x93, 0xa2, 0x68], [0x93, 0xa2, 0x68, 0x69, 0xcd, 0x01],
        [0x93, 0xa2, 0x68, 0x69, 0xcd, 0x01, 0x00, 0xc0]] {} =
      [(.ok none, { position := 1, owed := 3 }), (.ok none, { position := 4, owed := 2 }),
        (.ok (some 8), { position := 8, owed := 0 })] ∧
      IsGreatest {n | Boundary {} [0x93, 0xa2, 0x68, 0x69, 0xcd, 0x01] n} 4 := by
  have hfirst : resume {} [0x93, 0xa2, 0x68] {} = (.ok none, { position := 1, owed := 3 }) := by
    cbv
  have hsecond : resume {} [0x93, 0xa2, 0x68, 0x69, 0xcd, 0x01] { position := 1, owed := 3 } =
      (.ok none, { position := 4, owed := 2 }) := by cbv
  have hthird : resume {} [0x93, 0xa2, 0x68, 0x69, 0xcd, 0x01, 0x00, 0xc0]
      { position := 4, owed := 2 } = (.ok (some 8), { position := 8, owed := 0 }) := by cbv
  have hsteps : resumeAll {} [[0x93, 0xa2, 0x68], [0x93, 0xa2, 0x68, 0x69, 0xcd, 0x01],
        [0x93, 0xa2, 0x68, 0x69, 0xcd, 0x01, 0x00, 0xc0]] {} =
      [(.ok none, { position := 1, owed := 3 }), (.ok none, { position := 4, owed := 2 }),
        (.ok (some 8), { position := 8, owed := 0 })] := by
    simp only [resumeAll, hfirst, hsecond, hthird]
  have hstep : resume {} [0x93, 0xa2, 0x68, 0x69, 0xcd, 0x01] {} =
      (.ok none, { position := 4, owed := 2 }) := by cbv
  have hwanting : ∀ step ∈ (resumeAll {} [[0x93, 0xa2, 0x68], [0x93, 0xa2, 0x68, 0x69, 0xcd, 0x01],
        [0x93, 0xa2, 0x68, 0x69, 0xcd, 0x01, 0x00, 0xc0]] {}).dropLast, step.1 = .ok none := by
    rw [hsteps]
    decide
  obtain ⟨-, hbuffers⟩ := resumeAll_chain (by decide) (by decide) hwanting
  have hgreatest := (hbuffers [0x93, 0xa2, 0x68, 0x69, 0xcd, 0x01] (by decide)).1
    (congrArg Prod.fst hstep)
  rw [hstep] at hgreatest
  exact ⟨hsteps, hgreatest⟩

end Scan
end MessagePack
