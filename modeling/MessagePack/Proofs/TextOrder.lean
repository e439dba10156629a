import MessagePack.Proofs.Transcript

/-!
The order of texts. Texts are ordered character by character, and in the same way by the bytes of
their UTF-8 forms.
-/

namespace MessagePack

theorem utf8_eq_flatMap (text : String) :
    utf8 text = text.toList.flatMap String.utf8EncodeChar := by
  have hlist : text.toUTF8.toList = text.toByteArray.data.toList := toList_loop text.toUTF8 0 []
  rw [utf8, hlist, ← String.utf8Encode_toList, List.utf8Encode]
  simp

/-- Numbers of four digits to the base 64 are ordered as their digits are. -/
theorem digits_lt {m n : Nat} (hlt : m < n) (hn : n < 8 * 262144) :
    m / 262144 % 8 < n / 262144 % 8 ∨ m / 262144 % 8 = n / 262144 % 8 ∧
      (m / 4096 % 64 < n / 4096 % 64 ∨ m / 4096 % 64 = n / 4096 % 64 ∧
        (m / 64 % 64 < n / 64 % 64 ∨ m / 64 % 64 = n / 64 % 64 ∧ m % 64 < n % 64)) := by
  have hnext : ∀ {m n : Nat}, m < n → m / 64 < n / 64 ∨ m / 64 = n / 64 ∧ m % 64 < n % 64 := by
    omega
  have htwice : ∀ n, n / 64 / 64 = n / 4096 := fun n => Nat.div_div_eq_div_mul n 64 64
  have hthrice : ∀ n, n / 4096 / 64 = n / 262144 := fun n => Nat.div_div_eq_div_mul n 4096 64
  rcases hnext hlt with hless | ⟨hsame, hlast⟩
  · rcases hnext hless with hless | ⟨hsame, hthird⟩
    · rw [htwice, htwice] at hless
      rcases hnext hless with hless | ⟨hsame, hsecond⟩
      · rw [hthrice, hthrice] at hless
        left
        rwa [Nat.mod_eq_of_lt (by omega), Nat.mod_eq_of_lt (by omega)]
      · omega
    · omega
  · omega

theorem ofNat_lt_ofNat {m n : Nat} (hm : m < 256) (hn : n < 256) :
    UInt8.ofNat m < UInt8.ofNat n ↔ m < n := by
  rw [UInt8.lt_iff_toNat_lt, UInt8.toNat_ofNat_of_lt' hm, UInt8.toNat_ofNat_of_lt' hn]

theorem ofNat_eq_ofNat {m n : Nat} (hm : m < 256) (hn : n < 256) :
    UInt8.ofNat m = UInt8.ofNat n ↔ m = n := by
  rw [← UInt8.toNat_inj, UInt8.toNat_ofNat_of_lt' hm, UInt8.toNat_ofNat_of_lt' hn]

/-- The leading byte tells how many follow, and is greater where more do. -/
theorem utf8EncodeChar_lt {c d : Char} (hlt : c < d) (rest later : Bytes) :
    String.utf8EncodeChar c ++ rest < String.utf8EncodeChar d ++ later := by
  have hvalue : c.val.toNat < d.val.toNat := hlt
  have hbound : d.val.toNat < 0x110000 := by
    rcases d.valid with hbelow | ⟨-, hbelow⟩
    · exact Nat.lt_trans hbelow (by decide)
    · exact hbelow
  simp only [String.utf8EncodeChar]
  generalize c.val.toNat = m at *
  generalize d.val.toNat = n at *
  by_cases hfour : 0xffff < m
  · have hdigits := digits_lt hvalue (Nat.lt_trans hbound (by decide))
    simp (disch := omega) only [if_neg, List.cons_append, List.nil_append, List.cons_lt_cons_iff,
      ofNat_lt_ofNat, ofNat_eq_ofNat, Nat.add_lt_add_iff_right, Nat.add_right_cancel_iff]
    rcases hdigits with hfirst | ⟨hfirst, hsecond | ⟨hsecond, hthird | ⟨hthird, hlast⟩⟩⟩
    · exact .inl hfirst
    · exact .inr ⟨hfirst, .inl hsecond⟩
    · exact .inr ⟨hfirst, .inr ⟨hsecond, .inl hthird⟩⟩
    · exact .inr ⟨hfirst, .inr ⟨hsecond, .inr ⟨hthird, .inl hlast⟩⟩⟩
  · repeat' split
    all_goals
      simp (disch := omega) only [List.cons_append, List.nil_append, List.cons_lt_cons_iff,
        ofNat_lt_ofNat, ofNat_eq_ofNat]
      omega

theorem flatMap_lt {first second : List Char} (hlt : first < second) :
    first.flatMap String.utf8EncodeChar < second.flatMap String.utf8EncodeChar := by
  induction first generalizing second with
  | nil =>
      cases second with
      | nil => exact absurd hlt (List.lt_irrefl [])
      | cons d second =>
          have hpos := String.length_utf8EncodeChar d ▸ d.utf8Size_pos
          cases hbytes : String.utf8EncodeChar d with
          | nil => rw [hbytes] at hpos; cases hpos
          | cons byte bytes =>
              rw [List.flatMap_cons, hbytes]
              exact List.nil_lt_cons _ _
  | cons c first ih =>
      cases second with
      | nil => exact absurd hlt (List.not_lt_nil _)
      | cons d second =>
          rw [List.flatMap_cons, List.flatMap_cons]
          rcases List.cons_lt_cons_iff.mp hlt with hless | ⟨rfl, hrest⟩
          · exact utf8EncodeChar_lt hless _ _
          · exact List.append_left_lt (ih hrest)

/-- Texts are ordered as their bytes are. -/
theorem utf8_lt_utf8 {first second : String} : utf8 first < utf8 second ↔ first < second := by
  rw [utf8_eq_flatMap, utf8_eq_flatMap]
  refine ⟨fun hbytes => ?_, flatMap_lt⟩
  refine Decidable.byContradiction fun hnot => ?_
  by_cases hmore : second < first
  · exact absurd (flatMap_lt hmore) (List.lt_asymm hbytes)
  · obtain rfl := String.le_antisymm (String.not_lt.mp hmore) (String.not_lt.mp hnot)
    exact absurd hbytes (List.lt_irrefl _)

end MessagePack
