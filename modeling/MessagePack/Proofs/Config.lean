import MessagePack.Config

/-!
What a valid configuration promises to those who are created with it.
-/

namespace MessagePack

theorem requireFeature_on {enabled : Bool} (henabled : enabled = true) (feature : Feature) :
    requireFeature enabled feature = .ok () :=
  if_pos henabled

theorem requireFeature_eq_ok {enabled : Bool} {feature : Feature} {done : Unit}
    (hfeature : requireFeature enabled feature = .ok done) : enabled = true := by
  unfold requireFeature at hfeature
  split at hfeature
  · assumption
  · cases hfeature

theorem reserve_ok {count itemSize : Nat} (hsize : count * itemSize ≤ maxReserve) :
    reserve count itemSize = .ok () :=
  if_pos hsize

theorem reserve_eq_ok {count itemSize : Nat} {done : Unit}
    (hreserve : reserve count itemSize = .ok done) : count * itemSize ≤ maxReserve := by
  unfold reserve at hreserve
  split at hreserve
  · assumption
  · cases hreserve

theorem reserve_refused {count itemSize : Nat} {error : Error}
    (hreserve : reserve count itemSize = .error error) :
    ∃ requested, error = .resource requested := by
  unfold reserve at hreserve
  split at hreserve
  · cases hreserve
  · cases hreserve
    exact ⟨_, rfl⟩

namespace Config

variable {config : Config}

theorem Valid.validate (hvalid : config.Valid) : config.validate = .ok () := by
  have hfault : config.fault? = none := hvalid
  rw [Config.validate, hfault]

theorem valid_of_validate {done : Unit} (hvalidate : config.validate = .ok done) :
    config.Valid := by
  unfold validate at hvalidate
  split at hvalidate
  · cases hvalidate
  · assumption

theorem Valid.legacy (hvalid : config.Valid) (hversion : config.version = .v4) :
    config.tagOptions.version = .v4 := by
  cases hcompatibility : config.compatibility with
  | true => simp [tagOptions, effectiveVersion, hcompatibility, hversion]
  | false => simp [Valid, fault?, hcompatibility, hversion] at hvalid

theorem Valid.ceiling_pos (hvalid : config.Valid) (hdynamic : config.dynamicAlloc = false) :
    0 < config.maxDepthWithoutAlloc := by
  refine Nat.pos_of_ne_zero fun hzero => ?_
  simp only [Valid, fault?, hdynamic, hzero, Bool.not_false, and_self, if_true] at hvalid
  repeat' split at hvalid
  all_goals cases hvalid

theorem Valid.sizes_pos (hvalid : config.Valid) :
    0 < config.bufferSize ∧ 0 < config.nodePageSize ∧ 0 < config.builderPageSize := by
  refine Decidable.byContradiction fun hzero => ?_
  have hsize : config.bufferSize = 0 ∨ config.nodePageSize = 0 ∨ config.builderPageSize = 0 := by
    omega
  simp only [Valid, fault?, hsize, if_true] at hvalid
  split at hvalid
  · cases hvalid
  · split at hvalid <;> cases hvalid

theorem Valid.bufferSize_pos (hvalid : config.Valid) : 0 < config.bufferSize :=
  hvalid.sizes_pos.1

theorem Valid.buffered (hvalid : config.Valid) {size : Nat} (hsize : 0 < size) :
    Valid { config with bufferSize := size } := by
  have hpositive := hvalid.bufferSize_pos
  simp only [Valid, fault?, Nat.ne_of_gt hpositive, Nat.ne_of_gt hsize, false_or] at hvalid ⊢
  exact hvalid

/-! Nothing caps the nesting where memory is allocated as it is needed. -/

theorem trackingLimit_of_dynamic (hdynamic : config.dynamicAlloc = true) :
    config.trackingLimit = none :=
  if_pos hdynamic

theorem nodeDepthLimit_of_dynamic (hdynamic : config.dynamicAlloc = true) (requested : Nat) :
    config.nodeDepthLimit requested = requested :=
  if_pos hdynamic

end Config
end MessagePack
