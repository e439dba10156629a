import MessagePack.Proofs.Elements

/-!
Levels of nesting. Arrays and maps make a value deeper; while a str, a bin or an ext is written
or read it is open as well, which makes one level more at most.
-/

namespace MessagePack

namespace Value

mutual

/-- How many compounds are open at once while the value is written or read. -/
def levels : Value → Nat
  | .str _ | .bin _ | .ext _ _ => 1
  | .array items => levelsItems items + 1
  | .map entries => levelsEntries entries + 1
  | _ => 0

def levelsItems : List Value → Nat
  | [] => 0
  | item :: items => max (levels item) (levelsItems items)

def levelsEntries : List (Value × Value) → Nat
  | [] => 0
  | (key, value) :: entries => max (levels key) (max (levels value) (levelsEntries entries))

end

theorem levelsEntries_eq (entries : List (Value × Value)) :
    levelsEntries entries = levelsItems (unpaired entries) := by
  induction entries with
  | nil => rfl
  | cons entry entries ih => rw [levelsEntries, ih, unpaired, levelsItems, levelsItems]

theorem levels_eq (value : Value) :
    value.levels = if value.tag.isCompound then levelsItems value.elements + 1 else 0 := by
  cases value with
  | map entries => exact congrArg (· + 1) (levelsEntries_eq entries)
  | _ => rfl

theorem elements_of_scalar {value : Value} (hscalar : value.tag.isCompound = false) :
    value.elements = [] := by
  cases value with
  | array items => cases hscalar
  | map entries => cases hscalar
  | _ => rfl

theorem depthItems_levels {items : List Value}
    (hitems : ∀ item ∈ items, item.depth ≤ item.levels ∧ item.levels ≤ item.depth + 1) :
    depthItems items ≤ levelsItems items ∧ levelsItems items ≤ depthItems items + 1 := by
  induction items with
  | nil => exact ⟨Nat.le_refl 0, Nat.zero_le _⟩
  | cons item items ih =>
      have hitem := hitems item (.head _)
      have hothers := ih fun other hother => hitems other (.tail _ hother)
      rw [depthItems, levelsItems]
      omega

theorem depth_levels (value : Value) :
    value.depth ≤ value.levels ∧ value.levels ≤ value.depth + 1 := by
  induction value using byElements with
  | hstep value ih =>
      have helements := depthItems_levels ih
      cases value with
      | array items => exact ⟨Nat.succ_le_succ helements.1, Nat.succ_le_succ helements.2⟩
      | map entries =>
          rw [depth_eq, levels_eq]
          exact ⟨Nat.succ_le_succ helements.1, Nat.succ_le_succ helements.2⟩
      | str _ | bin _ | ext _ _ => exact ⟨Nat.zero_le 1, Nat.le_refl 1⟩
      | _ => exact ⟨Nat.le_refl 0, Nat.zero_le 1⟩

end Value

namespace Room

variable {α β γ : Type} {depth limit levels : Nat}

/-- What there is at so many levels more, unless these go beyond the limit. -/
def capped (depth limit levels : Nat) (value : α) : Except Error α :=
  if depth + levels ≤ limit then .ok value else .error (.tooDeep (limit + 1) limit)

theorem capped_zero (hdepth : depth ≤ limit) (value : α) :
    capped depth limit 0 value = .ok value :=
  if_pos hdepth

theorem capped_map (value : α) (f : α → β) :
    (capped depth limit levels value).map f = capped depth limit levels (f value) := by
  unfold capped
  split <;> rfl

theorem capped_bind_capped {more : Nat} (first : α) (rest : β) (combine : α → β → γ) :
    (do
      let head ← capped depth limit levels first
      let tail ← capped depth limit more rest
      return combine head tail) = capped depth limit (max levels more) (combine first rest) := by
  unfold capped
  by_cases hfirst : depth + levels ≤ limit
  · by_cases hrest : depth + more ≤ limit
    · rw [if_pos hfirst, if_pos hrest, if_pos (by omega)]
      rfl
    · rw [if_pos hfirst, if_neg hrest, if_neg (by omega)]
      rfl
  · have hboth : ¬depth + max levels more ≤ limit := by omega
    rw [if_neg hfirst, if_neg hboth]
    rfl

/-- A level more is taken for what is inside. -/
theorem deeper_bind {next : Room → Except Error α} {value : α} (hdepth : depth ≤ limit)
    (hnext : depth < limit →
      next (some (depth + 1, limit)) = capped (depth + 1) limit levels value) :
    ((deeper (some (depth, limit))) >>= next) = capped depth limit (levels + 1) value := by
  simp only [deeper]
  by_cases hfull : limit ≤ depth
  · obtain rfl : depth = limit := by omega
    rw [if_pos hfull, capped, if_neg (by omega)]
    rfl
  · rw [if_neg hfull]
    refine (hnext (by omega)).trans ?_
    unfold capped
    rw [Nat.add_assoc, Nat.add_comm 1 levels]

theorem entered_of_compound {tag : Tag} (hcompound : tag.isCompound = true) (room : Room) :
    room.entered tag = room.deeper :=
  if_pos hcompound

theorem entered_of_scalar {tag : Tag} (hscalar : tag.isCompound = false) (room : Room) :
    room.entered tag = .ok room :=
  if_neg (by rw [hscalar]; exact Bool.false_ne_true)

theorem entered_none (tag : Tag) : entered tag none = .ok none := by
  unfold entered
  split <;> rfl

end Room

variable {options : TagOptions} {depth limit : Nat}

/-! What is written where there is a limit. -/

namespace Value

theorem itemsEncoding_capped {items : List Value} {text : Bytes} (hdepth : depth ≤ limit)
    (hitems : ∀ item ∈ items, ∀ bytes, item.encoding options none = .ok bytes →
      item.encoding options (some (depth, limit)) = Room.capped depth limit item.levels bytes)
    (htext : itemsEncoding options none items = .ok text) :
    itemsEncoding options (some (depth, limit)) items =
      Room.capped depth limit (levelsItems items) text := by
  induction items generalizing text with
  | nil =>
      cases htext
      exact (Room.capped_zero hdepth _).symm
  | cons item items ih =>
      obtain ⟨head, hhead, hrest⟩ := bind_eq_ok htext
      obtain ⟨tail, htail, hpure⟩ := bind_eq_ok hrest
      cases hpure
      rw [itemsEncoding, joined, hitems item (.head _) head hhead,
        ih (fun other hother => hitems other (.tail _ hother)) htail]
      exact Room.capped_bind_capped head tail (· ++ ·)

theorem encoding_capped (hdepth : depth ≤ limit) {value : Value} {bytes : Bytes}
    (hencoding : value.encoding options none = .ok bytes) :
    value.encoding options (some (depth, limit)) =
      Room.capped depth limit value.levels bytes := by
  induction value using byElements generalizing depth bytes with
  | hstep value ih =>
      rw [encoding_eq] at hencoding ⊢
      obtain ⟨header, hheader, hrest⟩ := bind_eq_ok hencoding
      obtain ⟨inner, hinner, hrest⟩ := bind_eq_ok hrest
      rw [Room.entered_none] at hinner
      cases hinner
      obtain ⟨text, htext, hpure⟩ := bind_eq_ok hrest
      cases hpure
      rw [hheader, levels_eq]
      cases hcompound : value.tag.isCompound with
      | true =>
          rw [Room.entered_of_compound hcompound, if_pos rfl]
          refine Room.deeper_bind hdepth fun hless => ?_
          rw [itemsEncoding_capped (Nat.succ_le_of_lt hless) (fun element helement bytes =>
            ih element helement (Nat.succ_le_of_lt hless)) htext]
          exact Room.capped_map text _
      | false =>
          rw [elements_of_scalar hcompound] at htext ⊢
          cases htext
          rw [Room.entered_of_scalar hcompound]
          exact (Room.capped_zero hdepth _).symm

end Value

/-! What is read where there is a limit. -/

namespace Message

mutual

/-- How many compounds are open at once while the message is read. -/
def levels : Message → Nat
  | .node _ tag _ children => if tag.isCompound then levelsOf children + 1 else 0

def levelsOf : List Message → Nat
  | [] => 0
  | message :: messages => max (levels message) (levelsOf messages)

end

mutual

/-- The value of the message, or the first thing that is wrong: no room for what it opens, or the
text of a str. -/
def valueIn (room : Room) : Message → Except Error Value
  | .node header tag payload children => do
      let inner ← room.entered tag
      match tag with
      | .array _ => (valuesIn inner children).map .array
      | .map _ => (valuesIn inner children).map fun found => .map (paired found)
      | _ => value (.node header tag payload children)

def valuesIn (room : Room) : List Message → Except Error (List Value)
  | [] => .ok []
  | message :: messages => do
      let first ← valueIn room message
      let rest ← valuesIn room messages
      return first :: rest

end

theorem levels_of_compound {header payload : Bytes} {tag : Tag} {children : List Message}
    (hcompound : tag.isCompound = true) :
    (node header tag payload children).levels = levelsOf children + 1 :=
  if_pos hcompound

theorem entered_fits {tag : Tag} {levels : Nat} (hcompound : tag.isCompound = true)
    (hfits : depth + (levels + 1) ≤ limit) :
    Room.entered tag (some (depth, limit)) = .ok (some (depth + 1, limit)) := by
  rw [Room.entered_of_compound hcompound, Room.deeper, if_neg (by omega)]

mutual

/-- Within the limit there is nothing to tell that there is one. -/
theorem valueIn_of_fits : (message : Message) → (depth : Nat) →
    depth + message.levels ≤ limit → message.valueIn (some (depth, limit)) = message.value
  | .node header tag payload children, depth, hfits => by
      rw [valueIn]
      cases tag with
      | array count =>
          rw [levels_of_compound rfl] at hfits
          rw [entered_fits rfl hfits, value, ← valuesIn_of_fits children (depth + 1) (by omega)]
          rfl
      | map pairs =>
          rw [levels_of_compound rfl] at hfits
          rw [entered_fits rfl hfits, value, ← valuesIn_of_fits children (depth + 1) (by omega)]
          rfl
      | str _ | bin _ | ext _ _ =>
          rw [levels_of_compound rfl] at hfits
          rw [entered_fits rfl hfits]
          rfl
      | _ => rfl

theorem valuesIn_of_fits : (messages : List Message) → (depth : Nat) →
    depth + levelsOf messages ≤ limit → valuesIn (some (depth, limit)) messages = values messages
  | [], _, _ => rfl
  | message :: messages, depth, hfits => by
      rw [levelsOf] at hfits
      rw [valuesIn, values, valueIn_of_fits message depth (by omega),
        valuesIn_of_fits messages depth (by omega)]

end

theorem valuesIn_capped {messages : List Message} {found : List Value} (hdepth : depth ≤ limit)
    (hmessages : ∀ message ∈ messages, ∀ value, message.value = .ok value →
      message.valueIn (some (depth, limit)) = Room.capped depth limit message.levels value)
    (hvalues : values messages = .ok found) :
    valuesIn (some (depth, limit)) messages =
      Room.capped depth limit (levelsOf messages) found := by
  induction messages generalizing found with
  | nil =>
      cases hvalues
      exact (Room.capped_zero hdepth _).symm
  | cons message messages ih =>
      obtain ⟨first, rest, hfirst, hrest, rfl⟩ := values_cons_eq_ok.mp hvalues
      rw [valuesIn, hmessages message (.head _) first hfirst,
        ih (fun other hother => hmessages other (.tail _ hother)) hrest]
      exact Room.capped_bind_capped first rest List.cons

theorem Complete.valueIn_capped {message : Message} {found : Value}
    (hcomplete : message.Complete options) (hdepth : depth ≤ limit)
    (hvalue : message.value = .ok found) :
    message.valueIn (some (depth, limit)) = Room.capped depth limit message.levels found := by
  induction hcomplete generalizing depth found with
  | @node header tag payload children _ _ hcount _ ih =>
      have hleaf : tag.childCount? = none → levelsOf children = 0 := by
        intro hnone
        rw [hnone] at hcount
        rw [List.eq_nil_of_length_eq_zero hcount]
        rfl
      have hinside : ∀ inside, values children = .ok inside → depth < limit →
          valuesIn (some (depth + 1, limit)) children =
            Room.capped (depth + 1) limit (levelsOf children) inside :=
        fun inside hinside hless => valuesIn_capped (Nat.succ_le_of_lt hless)
          (fun child hchild value => ih child hchild (Nat.succ_le_of_lt hless)) hinside
      rw [valueIn]
      cases tag with
      | array count =>
          obtain ⟨inside, hfound, rfl⟩ := map_eq_ok hvalue
          rw [Room.entered_of_compound rfl, levels_of_compound rfl]
          refine Room.deeper_bind hdepth fun hless => ?_
          rw [hinside inside hfound hless]
          exact Room.capped_map inside _
      | map pairs =>
          obtain ⟨inside, hfound, rfl⟩ := map_eq_ok hvalue
          rw [Room.entered_of_compound rfl, levels_of_compound rfl]
          refine Room.deeper_bind hdepth fun hless => ?_
          rw [hinside inside hfound hless]
          exact Room.capped_map inside _
      | str _ | bin _ | ext _ _ =>
          rw [Room.entered_of_compound rfl, levels_of_compound rfl, hleaf rfl]
          refine Room.deeper_bind hdepth fun hless => ?_
          exact hvalue.trans (Room.capped_zero (Nat.succ_le_of_lt hless) _).symm
      | _ => exact hvalue.trans (Room.capped_zero hdepth _).symm

mutual

theorem value_error : (message : Message) → ∀ {error}, message.value = .error error →
    error = .invalid .invalidUtf8
  | .node _ tag payload children, error, hvalue => by
      cases tag with
      | str length =>
          simp only [value, Value.ofText] at hvalue
          split at hvalue
          · cases hvalue
          · cases hvalue
            rfl
      | array count | map pairs =>
          simp only [value] at hvalue
          cases hvalues : values children with
          | error other =>
              rw [hvalues] at hvalue
              cases hvalue
              exact values_error children hvalues
          | ok found => rw [hvalues] at hvalue; cases hvalue
      | _ => cases hvalue

theorem values_error : (messages : List Message) → ∀ {error}, values messages = .error error →
    error = .invalid .invalidUtf8
  | [], _, hvalues => by cases hvalues
  | message :: messages, error, hvalues => by
      rw [values] at hvalues
      cases hvalue : message.value with
      | error other =>
          rw [hvalue] at hvalues
          cases hvalues
          exact value_error message hvalue
      | ok first =>
          cases hrest : values messages with
          | error other =>
              rw [hvalue, hrest] at hvalues
              cases hvalues
              exact values_error messages hrest
          | ok rest => rw [hvalue, hrest] at hvalues; cases hvalues

end

end Message
end MessagePack
