import MessagePack.Proofs.Header

/-!
Complete messages. A message is a header with the payload and the messages it announces; a text
of so many messages is these, one after the other.
-/

namespace MessagePack

theorem append_split {first second unseen behind : Bytes}
    (hsame : first ++ unseen = second ++ behind) (hlength : second.length ≤ first.length) :
    ∃ left, first = second ++ left ∧ left ++ unseen = behind := by
  have htake : first.take second.length = second := by
    have hall := congrArg (List.take second.length) hsame
    rwa [List.take_append_of_le_length hlength, List.take_left] at hall
  refine ⟨first.drop second.length, ?_, ?_⟩
  · rw [← htake, List.length_take_of_le hlength, List.take_append_drop]
  · have hall := congrArg (List.drop second.length) hsame
    rwa [List.drop_append_of_le_length hlength, List.drop_left] at hall

inductive Message where
  | node (header : Bytes) (tag : Tag) (payload : Bytes) (children : List Message)

namespace Message

mutual

def bytes : Message → Bytes
  | .node header _ payload children => header ++ payload ++ text children

def text : List Message → Bytes
  | [] => []
  | message :: messages => bytes message ++ text messages

end

theorem text_append (first second : List Message) :
    text (first ++ second) = text first ++ text second := by
  induction first with
  | nil => rfl
  | cons message messages ih => simp [text, ih, List.append_assoc]

theorem flatten_bytes (messages : List Message) : (messages.map bytes).flatten = text messages := by
  induction messages with
  | nil => rfl
  | cons message messages ih => rw [List.map_cons, List.flatten_cons, ih, text]

/-- The header is accepted, and everything it announces is there. -/
inductive Complete (options : TagOptions) : Message → Prop
  | node {header : Bytes} {tag : Tag} {payload : Bytes} {children : List Message}
      (hheader : Header.decode options header = .ok (tag, header.length))
      (hpayload : payload.length = tag.payloadLength?.getD 0)
      (hcount : children.length = tag.childCount?.getD 0)
      (hchildren : ∀ child ∈ children, Complete options child) :
      Complete options (.node header tag payload children)

private theorem text_unique {options : TagOptions} {first second : List Message}
    {rest later : Bytes}
    (hunique : ∀ message ∈ first, ∀ (other : Message) (rest later : Bytes),
      other.Complete options → message.bytes ++ rest = other.bytes ++ later →
        message = other ∧ rest = later)
    (hsecond : ∀ message ∈ second, message.Complete options)
    (hlength : first.length = second.length) (hsame : text first ++ rest = text second ++ later) :
    first = second ∧ rest = later := by
  induction first generalizing second with
  | nil =>
      rw [List.length_nil] at hlength
      rw [List.eq_nil_of_length_eq_zero hlength.symm] at hsame ⊢
      exact ⟨rfl, hsame⟩
  | cons message messages ih =>
      cases second with
      | nil => cases hlength
      | cons other others =>
          rw [text, text, List.append_assoc, List.append_assoc] at hsame
          obtain ⟨rfl, hrest⟩ :=
            hunique message (.head _) other _ _ (hsecond other (.head _)) hsame
          obtain ⟨rfl, rfl⟩ := ih (fun child hchild => hunique child (.tail _ hchild))
            (fun child hchild => hsecond child (.tail _ hchild)) (Nat.succ.inj hlength) hrest
          exact ⟨rfl, rfl⟩

/-- The bytes of a complete message are those of no other, whatever follows. -/
theorem Complete.unique {options : TagOptions} {message other : Message} {rest later : Bytes}
    (hcomplete : message.Complete options) (hother : other.Complete options)
    (hsame : message.bytes ++ rest = other.bytes ++ later) : message = other ∧ rest = later := by
  induction hcomplete generalizing other rest later with
  | node hheader hpayload hcount _ ih =>
      cases hother with
      | node hfound hcontent hnumber hinside =>
          simp only [bytes, List.append_assoc] at hsame
          obtain ⟨rfl, rfl, hbehind⟩ := Header.decode_unique hheader hfound hsame
          obtain ⟨rfl, htext⟩ := List.append_inj hbehind (hpayload.trans hcontent.symm)
          obtain ⟨rfl, rfl⟩ := text_unique
            (fun child hchild other rest later hother hsame => ih child hchild hother hsame)
            hinside (hcount.trans hnumber.symm) htext
          exact ⟨rfl, rfl⟩

end Message

variable {options : TagOptions} {count more : Nat} {text later header payload : Bytes}
  {tag : Tag}

/-- A text of so many complete messages. -/
def Messages (options : TagOptions) (count : Nat) (text : Bytes) : Prop :=
  ∃ messages : List Message, messages.length = count ∧
    (∀ message ∈ messages, message.Complete options) ∧ Message.text messages = text

namespace Messages

theorem none : Messages options 0 [] :=
  ⟨[], rfl, fun _ hmessage => absurd hmessage List.not_mem_nil, rfl⟩

theorem one_iff : Messages options 1 text ↔
    ∃ message : Message, message.Complete options ∧ message.bytes = text := by
  constructor
  · rintro ⟨messages, hlength, hcomplete, rfl⟩
    obtain ⟨message, rfl⟩ := List.length_eq_one_iff.mp hlength
    exact ⟨message, hcomplete message (.head _), (List.append_nil _).symm⟩
  · rintro ⟨message, hcomplete, rfl⟩
    refine ⟨[message], rfl, fun other hother => ?_, List.append_nil _⟩
    rw [List.mem_singleton.mp hother]
    exact hcomplete

theorem append (hfirst : Messages options count text) (hsecond : Messages options more later) :
    Messages options (count + more) (text ++ later) := by
  obtain ⟨first, rfl, hcomplete, rfl⟩ := hfirst
  obtain ⟨second, rfl, hothers, rfl⟩ := hsecond
  refine ⟨first ++ second, List.length_append, ?_, Message.text_append first second⟩
  intro message hmessage
  rcases List.mem_append.mp hmessage with hmessage | hmessage
  · exact hcomplete message hmessage
  · exact hothers message hmessage

theorem split (hmessages : Messages options (count + more) text) :
    ∃ first second, text = first ++ second ∧ Messages options count first ∧
      Messages options more second := by
  obtain ⟨messages, hlength, hcomplete, rfl⟩ := hmessages
  refine ⟨Message.text (messages.take count), Message.text (messages.drop count), ?_,
    ⟨messages.take count, ?_, ?_, rfl⟩, ⟨messages.drop count, ?_, ?_, rfl⟩⟩
  · rw [← Message.text_append, List.take_append_drop]
  · rw [List.length_take, hlength, Nat.min_eq_left (Nat.le_add_right count more)]
  · exact fun message hmessage => hcomplete message (List.mem_of_mem_take hmessage)
  · rw [List.length_drop, hlength, Nat.add_sub_cancel_left]
  · exact fun message hmessage => hcomplete message (List.mem_of_mem_drop hmessage)

theorem enclose (hheader : Header.decode options header = .ok (tag, header.length))
    (hpayload : payload.length = tag.payloadLength?.getD 0)
    (hmessages : Messages options (tag.childCount?.getD 0 + count) text) :
    Messages options (count + 1) (header ++ payload ++ text) := by
  obtain ⟨inside, rest, rfl, ⟨children, hcount, hchildren, rfl⟩, hrest⟩ := hmessages.split
  have hmessage : Messages options 1 (header ++ payload ++ Message.text children) :=
    one_iff.mpr ⟨.node header tag payload children, .node hheader hpayload hcount hchildren, rfl⟩
  have hall := hmessage.append hrest
  rwa [Nat.add_comm, List.append_assoc] at hall

theorem scalar (hheader : Header.decode options header = .ok (tag, header.length))
    (hpayload : tag.payloadLength? = .none) (hcount : tag.childCount? = .none) :
    Messages options 1 header := by
  have hmessages : Messages options (tag.childCount?.getD 0 + 0) [] := by
    rw [hcount]
    exact .none
  have hmessage : Messages options 1 (header ++ [] ++ []) :=
    hmessages.enclose hheader (by rw [hpayload]; rfl)
  simpa using hmessage

end Messages
end MessagePack
