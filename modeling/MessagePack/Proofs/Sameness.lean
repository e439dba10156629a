import MessagePack.Proofs.Minimal

/-!
When tags are the same. They are exactly if one header is written for both, but for the two
variants of a float, which share theirs.
-/

namespace MessagePack
namespace Tag

variable {left right other : Tag} {a b : Int}

theorem same_iff : left.same right = true ↔
    left = right ∨ ∃ value, left.integer? = some value ∧ right.integer? = some value := by
  unfold same
  constructor
  · intro hsame
    split at hsame
    · next value number hleft hright =>
        have hequal : value = number := eq_of_beq hsame
        exact .inr ⟨value, hleft, hequal ▸ hright⟩
    · exact .inl (eq_of_beq hsame)
    · cases hsame
  · rintro (rfl | ⟨value, hleft, hright⟩)
    · exact same_refl left
    · rw [hleft, hright]
      exact beq_self_eq_true value

theorem same_symm (hsame : left.same right = true) : right.same left = true := by
  rcases same_iff.mp hsame with rfl | ⟨value, hleft, hright⟩
  · exact hsame
  · exact same_iff.mpr (.inr ⟨value, hright, hleft⟩)

theorem same_trans (hfirst : left.same right = true) (hsecond : right.same other = true) :
    left.same other = true := by
  rcases same_iff.mp hfirst with rfl | ⟨value, hleft, hright⟩
  · exact hsecond
  · rcases same_iff.mp hsecond with rfl | ⟨number, hagain, hother⟩
    · exact hfirst
    · cases hright.symm.trans hagain
      exact same_iff.mpr (.inr ⟨value, hleft, hother⟩)

theorem same_equivalence : Equivalence fun left right : Tag => left.same right = true :=
  ⟨same_refl, same_symm, same_trans⟩

theorem same_of_integers (hleft : left.integer? = some a) (hright : right.integer? = some b) :
    left.same right = true ↔ a = b := by
  rw [same, hleft, hright]
  exact beq_iff_eq

/-! Integers as words. -/

/-- Compare as signed words if both tags have one, else as unsigned words. -/
def sameWords (left right : Tag) : Bool :=
  match left.signed?, right.signed? with
  | some a, some b => a == b
  | _, _ => left.unsigned?.isSome && left.unsigned? == right.unsigned?

/-- An integer is a word of one kind at least. -/
theorem word_of_integer (hleft : left.integer? = some a) :
    (∃ word, left.signed? = some word) ∨ ∃ word, left.unsigned? = some word := by
  cases left with
  | int value => exact .inl ⟨value, rfl⟩
  | uint value => exact .inr ⟨value, rfl⟩
  | _ => cases hleft

/-- Neither comparison takes a large number for a negative one. -/
theorem sameWords_iff (hleft : left.integer? = some a) (hright : right.integer? = some b) :
    left.sameWords right = true ↔ a = b := by
  unfold sameWords
  split
  · next first second hfirst hsecond =>
      obtain rfl := Option.some.inj (hleft.symm.trans (signed?_eq_some.mp hfirst))
      obtain rfl := Option.some.inj (hright.symm.trans (signed?_eq_some.mp hsecond))
      rw [beq_iff_eq, Int64.toInt_inj]
  · next hlarge =>
      cases hword : left.unsigned? with
      | some word =>
          obtain rfl := Option.some.inj (hleft.symm.trans (unsigned?_eq_some.mp hword))
          rw [Option.isSome_some, Bool.true_and, beq_iff_eq, eq_comm, unsigned?_eq_some, hright,
            Option.some.injEq, eq_comm]
      | none =>
          -- a negative number is a signed word, so nothing that equals it is too large for one
          refine iff_of_false (by simp) ?_
          rintro rfl
          obtain ⟨first, hfirst⟩ | ⟨word, hsome⟩ := word_of_integer hleft
          · have hsame := hright.trans (hleft.symm.trans (signed?_eq_some.mp hfirst))
            exact hlarge first first hfirst (signed?_eq_some.mpr hsame)
          · cases hword.symm.trans hsome

/-- A native and a raw float of the same bits. -/
inductive Twins : Tag → Tag → Prop
  | float (bits : UInt32) : Twins (.float bits) (.rawFloat bits)
  | double (bits : UInt64) : Twins (.double bits) (.rawDouble bits)

theorem Twins.same_iff {tag : Tag} (htwins : Twins left right) :
    left.same tag = true ↔ left = tag := by
  rw [Tag.same_iff]
  cases htwins <;> simp [integer?]

theorem Twins.unique {tag : Tag} (htwins : Twins tag left) (hother : Twins tag right) :
    left = right := by
  cases htwins <;> cases hother <;> rfl

/-- Where floats are native and nothing is legacy, only raw floats are not kept. -/
theorem under_or_twins {options : TagOptions} (hversion : options.version = .v5)
    (hfloat : options.float = .native) (tag : Tag) :
    tag.under options = tag ∨ Twins (tag.under options) tag := by
  cases tag with
  | rawFloat bits =>
      right
      simp only [under, hfloat]
      exact .float bits
  | rawDouble bits =>
      right
      simp only [under, hfloat]
      exact .double bits
  | float bits | double bits => simp only [under, hfloat, true_or]
  | bin length => simp only [under, hversion, true_or]
  | _ => exact .inl rfl

end Tag

namespace Header

open Tag (Twins)

variable {options : TagOptions} {first second : Tag}

/-- With extensions, in the current version, and with native floats, every tag has a header. -/
theorem encode_current (tag : Tag) :
    ∃ header, encode { version := .v5, extensions := true, float := .native } tag = .ok header := by
  cases hencode : encode { version := .v5, extensions := true, float := .native } tag with
  | ok header => exact ⟨header, rfl⟩
  | error error =>
      have hrefused := encode_eq_error.mp ⟨error, hencode⟩
      cases tag <;> simp [Tag.Unrepresentable] at hrefused

theorem encode_twins (hfloat : options.float = .native) (htwins : Twins first second) :
    encode options first = encode options second := by
  cases htwins <;> simp only [encode, requireNativeFloats_of_native hfloat] <;> rfl

/-- Tags with one header are read as the same tag. -/
theorem same_under_of_encode {header : Bytes} (hfirst : encode options first = .ok header)
    (hsecond : encode options second = .ok header) :
    (first.under options).same (second.under options) = true := by
  have hwritten {tag : Tag} (hencode : encode options tag = .ok header) :
      ¬tag.Unrepresentable options := by
    intro hrefused
    obtain ⟨error, herror⟩ := encode_eq_error.mpr hrefused
    rw [hencode] at herror
    cases herror
  have hread := (decode_encoded hfirst).symm.trans (decode_encoded hsecond)
  have hsame : first.asRead options = second.asRead options :=
    (Prod.mk.inj (Except.ok.inj hread)).1
  apply Tag.same_trans (Tag.same_symm (Tag.same_under (hwritten hfirst)))
  rw [hsame]
  exact Tag.same_under (hwritten hsecond)

theorem same_or_twins (hversion : options.version = .v5) (hfloat : options.float = .native)
    (hsame : (first.under options).same (second.under options) = true) :
    first.same second = true ∨ Twins first second ∨ Twins second first := by
  rcases Tag.under_or_twins hversion hfloat first with hfirst | hfirst <;>
    rcases Tag.under_or_twins hversion hfloat second with hsecond | hsecond
  · left
    rwa [hfirst, hsecond] at hsame
  · have hkept := hsecond.same_iff.mp (Tag.same_symm hsame)
    rw [hkept, hfirst] at hsecond
    exact .inr (.inl hsecond)
  · have hkept := hfirst.same_iff.mp hsame
    rw [hkept, hsecond] at hfirst
    exact .inr (.inr hfirst)
  · have hkept := hfirst.same_iff.mp hsame
    rw [hkept] at hfirst
    exact .inl (hfirst.unique hsecond ▸ Tag.same_refl first)

/-- To be the same is an equivalence of tags, and for integers it is to have the same value, whether
these are compared as numbers or as words. Where every tag has a header, two tags have one and the
same exactly if they are the same, or a native and a raw float of the same bits. -/
theorem encode_eq_iff_same :
    (Equivalence fun left right : Tag => left.same right = true) ∧
    (∀ (left right : Tag) (a b : Int), left.integer? = some a → right.integer? = some b →
      (left.same right = true ↔ a = b) ∧ left.same right = left.sameWords right) ∧
    ∀ first second : Tag, ∃ header other,
      encode { version := .v5, extensions := true, float := .native } first = .ok header ∧
      encode { version := .v5, extensions := true, float := .native } second = .ok other ∧
      (header = other ↔
        first.same second = true ∨ Twins first second ∨ Twins second first) := by
  refine ⟨Tag.same_equivalence, fun left right a b hleft hright => ?_, fun first second => ?_⟩
  · have hvalues := Tag.same_of_integers hleft hright
    refine ⟨hvalues, ?_⟩
    rw [Bool.eq_iff_iff, hvalues, Tag.sameWords_iff hleft hright]
  · obtain ⟨header, hfirst⟩ := encode_current first
    obtain ⟨other, hsecond⟩ := encode_current second
    refine ⟨header, other, hfirst, hsecond, ?_, ?_⟩
    · rintro rfl
      exact same_or_twins rfl rfl (same_under_of_encode hfirst hsecond)
    · intro hsame
      have hencode : encode { version := .v5, extensions := true, float := .native } first =
          encode { version := .v5, extensions := true, float := .native } second := by
        rcases hsame with hsame | htwins | htwins
        · exact encode_same hsame
        · exact encode_twins rfl htwins
        · exact (encode_twins rfl htwins).symm
      rw [hfirst, hsecond] at hencode
      exact Except.ok.inj hencode

/-- One below zero and the greatest word have the same bits, five is five in either form, and a NaN
is itself. -/
theorem encode_eq_iff_same_words :
    (Tag.int (-1)).same (.uint 0xffffffffffffffff) = false ∧
      (Tag.int 5).same (.uint 5) = true ∧ (Tag.uint 5).same (.int 5) = true ∧
      (Tag.double 0x7ff8000000001234).same (.double 0x7ff8000000001234) = true := by
  obtain ⟨hequivalence, hintegers, -⟩ := encode_eq_iff_same
  have hfive : (Tag.int 5).same (.uint 5) = true := (hintegers _ _ 5 5 rfl rfl).1.mpr rfl
  refine ⟨?_, hfive, hequivalence.symm hfive, hequivalence.refl _⟩
  rw [Bool.eq_false_iff]
  intro hsame
  exact absurd ((hintegers _ _ (-1) 0xffffffffffffffff rfl rfl).1.mp hsame) (by decide)

end Header
end MessagePack
