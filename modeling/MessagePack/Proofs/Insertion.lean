import MessagePack.Proofs.Splice
import MessagePack.Proofs.Header

/-!
How a builder keeps its pages and slots. The slots come in the order of their offsets, so that
what is spliced is the paged bytes with every header at its own place, wherever one page ends and
the next begins.
-/

namespace MessagePack
namespace Builder

/-! Headers at their places. -/

/-- The headers that belong at an offset, the earlier slot first. -/
def headersAt (slots : List Slot) (offset : Nat) : Bytes :=
  (slots.filter (·.offset = offset)).flatMap Slot.header

/-- Bytes that start at `offset`. In front of each, and behind the last, are the headers that
belong there. -/
def inserted (slots : List Slot) (offset : Nat) : Bytes → Bytes
  | [] => headersAt slots offset
  | byte :: bytes => headersAt slots offset ++ byte :: inserted slots (offset + 1) bytes

section Inserted

variable {slots : List Slot} {slot : Slot} {offset : Nat}

theorem headersAt_of_lt (hbeyond : ∀ slot ∈ slots, offset < slot.offset) :
    headersAt slots offset = [] := by
  have hnone : slots.filter (·.offset = offset) = [] := by
    rw [List.filter_eq_nil_iff]
    intro slot hslot
    have hlater := hbeyond slot hslot
    simp only [decide_eq_true_eq]
    omega
  rw [headersAt, hnone, List.flatMap_nil]

/-- A slot that is passed makes no difference. -/
theorem inserted_passed (hpassed : slot.offset < offset) (bytes : Bytes) :
    inserted (slot :: slots) offset bytes = inserted slots offset bytes := by
  have hheaders : ∀ place, offset ≤ place →
      headersAt (slot :: slots) place = headersAt slots place := by
    intro place hplace
    rw [headersAt, List.filter_cons_of_neg (by simp only [decide_eq_true_eq]; omega), headersAt]
  induction bytes generalizing offset with
  | nil => exact hheaders offset (Nat.le_refl _)
  | cons byte bytes ih =>
      rw [inserted, inserted, hheaders offset (Nat.le_refl _), ih (by omega)]
      exact fun place hplace => hheaders place (by omega)

/-- The first slot that belongs here comes first. -/
theorem inserted_here (slots : List Slot) (hhere : slot.offset = offset) (bytes : Bytes) :
    inserted (slot :: slots) offset bytes = slot.header ++ inserted slots offset bytes := by
  have hheaders : headersAt (slot :: slots) offset = slot.header ++ headersAt slots offset := by
    rw [headersAt, List.filter_cons_of_pos (by simpa using hhere), List.flatMap_cons, headersAt]
  cases bytes with
  | nil => exact hheaders
  | cons byte bytes =>
      rw [inserted, inserted, hheaders, inserted_passed (by omega), List.append_assoc]

/-- Nothing goes in before the first slot. -/
theorem inserted_append (before after : Bytes)
    (hbeyond : ∀ slot ∈ slots, offset + before.length ≤ slot.offset) :
    inserted slots offset (before ++ after) =
      before ++ inserted slots (offset + before.length) after := by
  induction before generalizing offset with
  | nil => rfl
  | cons byte before ih =>
      rw [List.length_cons] at hbeyond
      have hnone : headersAt slots offset = [] := by
        apply headersAt_of_lt
        intro slot hslot
        have := hbeyond slot hslot
        omega
      have hrest := @ih (offset + 1) fun slot hslot => by
        have := hbeyond slot hslot
        omega
      rw [List.cons_append, inserted, hnone, List.nil_append, hrest, List.cons_append,
        List.length_cons, Nat.add_assoc, Nat.add_comm 1]

theorem inserted_nil (offset : Nat) (bytes : Bytes) : inserted [] offset bytes = bytes := by
  induction bytes generalizing offset with
  | nil => rfl
  | cons byte bytes ih =>
      rw [inserted, ih]
      rfl

/-- Slot after slot is what byte after byte is, if the slots come in the order of their offsets. -/
theorem weave_eq_inserted {bytes : Bytes}
    (hsorted : (slots.map Slot.offset).Pairwise (· ≤ ·))
    (hfrom : ∀ slot ∈ slots, offset ≤ slot.offset)
    (hwithin : ∀ slot ∈ slots, slot.offset ≤ offset + bytes.length) :
    weave offset bytes slots = inserted slots offset bytes := by
  induction slots generalizing offset bytes with
  | nil => exact (inserted_nil offset bytes).symm
  | cons slot slots ih =>
      rw [List.map_cons, List.pairwise_cons] at hsorted
      have hlater : ∀ other ∈ slots, slot.offset ≤ other.offset := fun other hother =>
        hsorted.1 _ (List.mem_map_of_mem hother)
      have hstart := hfrom slot (.head _)
      have hend := hwithin slot (.head _)
      obtain ⟨cut, hcut⟩ := Nat.exists_eq_add_of_le hstart
      have hless : slot.offset - offset = cut := by omega
      have hlength : offset + (bytes.take cut).length = slot.offset := by
        rw [List.length_take]
        omega
      have hrest : weave slot.offset (bytes.drop cut) slots =
          inserted slots slot.offset (bytes.drop cut) := by
        apply ih hsorted.2 hlater
        intro other hother
        have := hwithin other (.tail _ hother)
        rw [List.length_drop]
        omega
      calc weave offset bytes (slot :: slots)
          = bytes.take cut ++ slot.header ++ inserted slots slot.offset (bytes.drop cut) := by
            rw [weave, hless, hlength, hrest]
        _ = bytes.take cut ++ inserted (slot :: slots) slot.offset (bytes.drop cut) := by
            rw [inserted_here slots rfl, List.append_assoc]
        _ = inserted (slot :: slots) offset (bytes.take cut ++ bytes.drop cut) := by
            rw [inserted_append, hlength]
            rw [hlength]
            intro other hother
            rcases List.mem_cons.mp hother with rfl | hbehind
            · exact Nat.le_refl _
            · exact hlater other hbehind
        _ = inserted (slot :: slots) offset bytes := by rw [List.take_append_drop]

end Inserted

/-- No byte is left out, nor any header. -/
theorem length_weave (offset : Nat) (bytes : Bytes) (slots : List Slot) :
    (weave offset bytes slots).length = bytes.length + (slots.flatMap Slot.header).length := by
  induction slots generalizing offset bytes with
  | nil => rfl
  | cons slot slots ih =>
      rw [weave, List.length_append, List.length_append, ih, List.flatMap_cons, List.length_append,
        List.length_take, List.length_drop]
      omega

theorem map_modify {view : α → β} {change : α → α} (items : List α) (place : Nat)
    (hsame : ∀ item, view (change item) = view item) :
    (items.modify place change).map view = items.map view := by
  apply List.ext_getElem?
  intro index
  rw [List.getElem?_map, List.getElem?_modify, List.getElem?_map]
  cases items[index]? with
  | none => rfl
  | some item =>
      simp only [Option.map_some]
      split
      · exact congrArg some (hsame item)
      · rfl

/-! What calls keep. -/

variable {builder after : Builder} {bytes : Bytes}

/-- Where the headers belong, the slot that was reserved first in front. -/
def offsets (builder : Builder) : List Nat :=
  builder.slots.toList.map Slot.offset

/-- The slots of the open builds, that of the innermost first. -/
def reserved (builder : Builder) : List Nat :=
  builder.builds.map Build.slot

/-- Pages are filled one after the other, each up to its size. -/
structure Paged (builder : Builder) : Prop where
  room : 0 < builder.pageSize
  full : ∀ page ∈ builder.pages.toList.dropLast, page.size = builder.pageSize
  sized : ∀ page ∈ builder.pages.toList, 0 < page.size ∧ page.size ≤ builder.pageSize

/-- Slots lie in the order of their offsets and within the pages. Every open build has a slot of
its own, an outer one an earlier slot; all other slots are filled. -/
structure Orderly (builder : Builder) : Prop where
  paged : builder.Paged
  length : builder.length = builder.contents.length
  sorted : builder.offsets.Pairwise (· ≤ ·)
  within : ∀ offset ∈ builder.offsets, offset ≤ builder.length
  nested : builder.reserved.Pairwise (· > ·)
  backed : ∀ place ∈ builder.reserved, place < builder.slots.size
  filled : ∀ (place : Nat) (slot : Slot), builder.slots[place]? = some slot →
    place ∉ builder.reserved → slot.header ≠ []

theorem Orderly.spliced (horderly : builder.Orderly) :
    builder.spliced.flatten = inserted builder.slots.toList 0 builder.contents := by
  rw [flatten_spliced]
  apply weave_eq_inserted horderly.sorted
  · exact fun _ _ => Nat.zero_le _
  · intro slot hslot
    rw [Nat.zero_add, ← horderly.length]
    exact horderly.within _ (List.mem_map_of_mem hslot)

theorem Paged.of_pages (hpaged : builder.Paged) (hpages : after.pages = builder.pages)
    (hsize : after.pageSize = builder.pageSize) : after.Paged := by
  obtain ⟨hpos, hfull, hsized⟩ := hpaged
  rw [← hpages, ← hsize] at hfull hsized
  exact ⟨hsize ▸ hpos, hfull, hsized⟩

/-- All that a last page leaves to the others is that they are full. -/
theorem paged_push_iff {full : Array (Array UInt8)} {page : Array UInt8}
    (hpages : builder.pages = full.push page) :
    builder.Paged ↔ 0 < builder.pageSize ∧ (∀ other ∈ full.toList, other.size = builder.pageSize) ∧
      0 < page.size ∧ page.size ≤ builder.pageSize := by
  have hlist : builder.pages.toList = full.toList ++ [page] := by rw [hpages, Array.toList_push]
  constructor
  · rintro ⟨hpos, hfull, hsized⟩
    rw [hlist] at hfull hsized
    rw [List.dropLast_concat] at hfull
    exact ⟨hpos, hfull, hsized page (List.mem_append_right _ (.head _))⟩
  · rintro ⟨hpos, hfull, hlast⟩
    refine ⟨hpos, ?_, ?_⟩
    · rw [hlist, List.dropLast_concat]
      exact hfull
    · rw [hlist]
      intro other hother
      rcases List.mem_append.mp hother with hbefore | hend
      · rw [hfull other hbefore]
        exact ⟨hpos, Nat.le_refl _⟩
      · rw [List.mem_singleton.mp hend]
        exact hlast

theorem Appended.paged {byte : UInt8} (happended : Appended byte builder after)
    (hpaged : builder.Paged) : after.Paged := by
  cases happended with
  | last hpages hroom =>
      obtain ⟨hpos, hfull, -, hpage⟩ := (paged_push_iff hpages).mp hpaged
      refine (paged_push_iff rfl).mpr ⟨hpos, hfull, ?_⟩
      rw [Array.size_push]
      exact ⟨Nat.succ_pos _, Nat.lt_of_le_of_ne hpage hroom⟩
  | first =>
      have hnone : ∀ page ∈ (#[] : Array (Array UInt8)).toList, page.size = builder.pageSize :=
        fun page hpage => absurd hpage List.not_mem_nil
      refine (paged_push_iff rfl).mpr ⟨hpaged.room, hnone, ?_⟩
      exact ⟨Nat.one_pos, hpaged.room⟩
  | next hpages hlast =>
      obtain ⟨hpos, hfull, -⟩ := (paged_push_iff hpages).mp hpaged
      refine (paged_push_iff rfl).mpr ⟨hpos, ?_, ?_⟩
      · intro other hother
        rw [Array.toList_push] at hother
        rcases List.mem_append.mp hother with hbefore | hend
        · exact hfull other hbefore
        · rw [List.mem_singleton.mp hend]
          exact hlast
      · exact ⟨Nat.one_pos, hpos⟩

namespace Orderly

/-- New bytes and counts make no difference to the slots. -/
theorem change (horderly : builder.Orderly) (hslots : after.slots = builder.slots)
    (hreserved : after.reserved = builder.reserved) (hpaged : after.Paged)
    (hlength : after.length = after.contents.length) (hmore : builder.length ≤ after.length) :
    after.Orderly := by
  have hoffsets : after.offsets = builder.offsets := by rw [offsets, hslots, offsets]
  refine ⟨hpaged, hlength, ?_, ?_, ?_, ?_, ?_⟩
  · rw [hoffsets]
    exact horderly.sorted
  · rw [hoffsets]
    exact fun offset hoffset => Nat.le_trans (horderly.within offset hoffset) hmore
  · rw [hreserved]
    exact horderly.nested
  · rw [hreserved, hslots]
    exact horderly.backed
  · rw [hreserved, hslots]
    exact horderly.filled

theorem appendByte {byte : UInt8} (horderly : builder.Orderly)
    (happended : Appended byte builder after) : after.Orderly := by
  have hpaged := happended.paged horderly.paged
  have hcontents := happended.contents
  have hlength : after.length = builder.length + 1 ∧ after.slots = builder.slots ∧
      after.reserved = builder.reserved := by
    cases happended with
    | last | first | next => exact ⟨rfl, rfl, rfl⟩
  apply horderly.change hlength.2.1 hlength.2.2 hpaged
  · rw [hlength.1, hcontents, List.length_append, horderly.length, List.length_singleton]
  · rw [hlength.1]
    exact Nat.le_succ _

/-- A new slot lies behind all others. -/
theorem reserve (kind : Compound) (horderly : builder.Orderly) :
    Orderly { builder with
      builds := { kind, slot := builder.slots.size } :: builder.builds
      slots := builder.slots.push { offset := builder.length } } := by
  have hoffsets : offsets { builder with
      builds := { kind, slot := builder.slots.size } :: builder.builds
      slots := builder.slots.push { offset := builder.length } } =
        builder.offsets ++ [builder.length] := by
    simp only [offsets, Array.toList_push, List.map_append, List.map_cons, List.map_nil]
  refine ⟨horderly.paged.of_pages rfl rfl, horderly.length, ?_, ?_, ?_, ?_, ?_⟩
  · rw [hoffsets, List.pairwise_append]
    refine ⟨horderly.sorted, List.pairwise_singleton _ _, fun offset hoffset last hlast => ?_⟩
    rw [List.mem_singleton.mp hlast]
    exact horderly.within offset hoffset
  · rw [hoffsets]
    intro offset hoffset
    rcases List.mem_append.mp hoffset with hbefore | hlast
    · exact horderly.within offset hbefore
    · exact Nat.le_of_eq (List.mem_singleton.mp hlast)
  · exact List.pairwise_cons.mpr ⟨horderly.backed, horderly.nested⟩
  · intro place hplace
    rw [Array.size_push]
    rcases List.mem_cons.mp hplace with rfl | houter
    · exact Nat.lt_succ_self _
    · exact Nat.lt_succ_of_lt (horderly.backed place houter)
  · intro place slot hslot hfree
    obtain ⟨hother, houter⟩ := List.ne_and_not_mem_of_not_mem_cons hfree
    rw [Array.getElem?_push, if_neg hother] at hslot
    exact horderly.filled place slot hslot houter

/-- A build that is closed leaves its slot filled. -/
theorem fill {top : Build} {outer : List Build} {header : Bytes} (horderly : builder.Orderly)
    (hbuilds : builder.builds = top :: outer) (hheader : header ≠ []) :
    Orderly { builder with
      builds := outer
      slots := builder.slots.modify top.slot fun slot => { slot with header } } := by
  have hreserved : builder.reserved = top.slot :: outer.map Build.slot := by
    rw [reserved, hbuilds, List.map_cons]
  have hnested := horderly.nested
  have hbacked := horderly.backed
  rw [hreserved] at hnested hbacked
  have hoffsets : offsets { builder with
      builds := outer
      slots := builder.slots.modify top.slot fun slot => { slot with header } } =
        builder.offsets := by
    rw [offsets, Array.toList_modify, offsets]
    exact map_modify _ _ fun _ => rfl
  refine ⟨horderly.paged.of_pages rfl rfl, horderly.length, ?_, ?_, ?_, ?_, ?_⟩
  · rw [hoffsets]
    exact horderly.sorted
  · rw [hoffsets]
    exact horderly.within
  · exact (List.pairwise_cons.mp hnested).2
  · intro place hplace
    rw [Array.size_modify]
    exact hbacked place (.tail _ hplace)
  · intro place slot hslot hfree
    rw [Array.getElem?_modify] at hslot
    split at hslot
    · obtain ⟨before, -, rfl⟩ := Option.map_eq_some_iff.mp hslot
      exact hheader
    · next hother =>
        apply horderly.filled place slot hslot
        rw [hreserved]
        exact List.not_mem_cons_of_ne_of_not_mem (Ne.symm hother) hfree

/-- A builder that holds nothing. -/
theorem empty (hpos : 0 < builder.pageSize) (hnone : builder.builds = [])
    (hpages : builder.pages = #[]) (hslots : builder.slots = #[]) (hlength : builder.length = 0) :
    builder.Orderly := by
  have hoffsets : builder.offsets = [] := by
    rw [offsets, hslots]
    rfl
  have hreserved : builder.reserved = [] := by rw [reserved, hnone, List.map_nil]
  refine ⟨⟨hpos, ?_, ?_⟩, ?_, ?_, ?_, ?_, ?_, ?_⟩
  · rw [hpages]
    exact fun page hpage => absurd hpage List.not_mem_nil
  · rw [hpages]
    exact fun page hpage => absurd hpage List.not_mem_nil
  · rw [hlength, contents, hpages]
    rfl
  · rw [hoffsets]
    exact .nil
  · rw [hoffsets]
    exact fun offset hoffset => absurd hoffset List.not_mem_nil
  · rw [hreserved]
    exact .nil
  · rw [hreserved]
    exact fun place hplace => absurd hplace List.not_mem_nil
  · intro place slot hslot
    rw [hslots] at hslot
    cases hslot

theorem clear (horderly : builder.Orderly) (hnone : builder.builds = []) :
    builder.clear.Orderly :=
  empty horderly.paged.room hnone rfl rfl rfl

end Orderly

/-- What becomes of a builder in which no build is begun or completed: bytes go behind the others
while a build is open, and nothing changes while none is. -/
structure Grown (bytes : Bytes) (builder after : Builder) : Prop where
  depth : after.depth = builder.depth
  idle : builder.builds = [] → after = builder
  contents : builder.builds ≠ [] → after.contents = builder.contents ++ bytes
  orderly : builder.Orderly → after.Orderly

namespace Grown

variable {middle : Builder} {first second : Bytes} {top : Build} {outer : List Build}

theorem refl (builder : Builder) : Grown [] builder builder :=
  ⟨rfl, fun _ => rfl, fun _ => (List.append_nil _).symm, id⟩

theorem active (hgrown : Grown bytes builder after) (hopen : builder.builds ≠ []) :
    after.builds ≠ [] := by
  have hdepth := hgrown.depth
  rw [← List.length_pos_iff] at hopen ⊢
  exact Nat.lt_of_lt_of_eq hopen hdepth.symm

theorem trans (hfirst : Grown first builder middle) (hsecond : Grown second middle after) :
    Grown (first ++ second) builder after := by
  refine ⟨hsecond.depth.trans hfirst.depth, fun hnone => ?_, fun hopen => ?_,
    fun horderly => hsecond.orderly (hfirst.orderly horderly)⟩
  · obtain rfl := hfirst.idle hnone
    exact hsecond.idle hnone
  · rw [hsecond.contents (hfirst.active hopen), hfirst.contents hopen, List.append_assoc]

theorem recount (hbuilds : builder.builds = top :: outer) (count nested : Nat) :
    Grown [] builder { builder with builds := { top with count, nested } :: outer } := by
  refine ⟨?_, ?_, fun _ => (List.append_nil _).symm, fun horderly => ?_⟩
  · simp only [Builder.depth, hbuilds, List.length_cons]
  · intro hnone
    rw [hnone] at hbuilds
    cases hbuilds
  · refine horderly.change rfl ?_ (horderly.paged.of_pages rfl rfl) horderly.length (Nat.le_refl _)
    simp only [reserved, hbuilds, List.map_cons]

theorem countValue (builder : Builder) : Grown [] builder builder.countValue := by
  unfold Builder.countValue
  split
  · next top outer hbuilds =>
      split
      · exact recount hbuilds (top.count + 1) top.nested
      · exact refl builder
  · exact refl builder

theorem openCounted (builder : Builder) : Grown [] builder builder.openCounted := by
  unfold Builder.openCounted
  split
  · next top outer hbuilds => exact recount hbuilds top.count (top.nested + 1)
  · exact refl builder

theorem closeCounted (hclose : builder.closeCounted = .ok after) : Grown [] builder after := by
  unfold Builder.closeCounted at hclose
  split at hclose
  · next top outer hbuilds =>
      split at hclose
      · cases hclose
      · cases hclose
        exact recount hbuilds top.count (top.nested - 1)
  · cases hclose
    exact refl builder

theorem appendByte {byte : UInt8} (hopen : builder.builds ≠ [])
    (happended : Appended byte builder after) : Grown [byte] builder after := by
  refine ⟨?_, fun hnone => absurd hnone hopen, fun _ => happended.contents,
    fun horderly => horderly.appendByte happended⟩
  cases happended with
  | last | first | next => rfl

theorem append (hopen : builder.builds ≠ []) (happend : builder.append bytes = .ok after) :
    Grown bytes builder after := by
  induction bytes generalizing builder with
  | nil =>
      cases happend
      exact refl _
  | cons byte bytes ih =>
      rw [Builder.append] at happend
      split at happend
      · next middle hbyte =>
          have hgrown := appendByte hopen (appendByte_eq_ok hbyte)
          exact hgrown.trans (ih (hgrown.active hopen) happend)
      · cases happend

end Grown

/-- A build begins with a slot behind all others, and nothing in it. -/
theorem Orderly.begin (horderly : builder.Orderly) (kind : Compound) :
    (builder.begin kind).Orderly ∧ (builder.begin kind).depth = builder.depth + 1 ∧
      (builder.begin kind).contents = builder.contents := by
  have hcounted := Grown.countValue builder
  refine ⟨(hcounted.orderly horderly).reserve kind, congrArg Nat.succ hcounted.depth, ?_⟩
  show builder.countValue.contents = builder.contents
  by_cases hnone : builder.builds = []
  · rw [hcounted.idle hnone]
  · rw [hcounted.contents hnone, List.append_nil]

theorem header_ne_nil {options : TagOptions} {kind : Compound} {count : Nat} {header : Bytes}
    (hheader : Builder.header options kind count = .ok header) : header ≠ [] := by
  simp only [Builder.header] at hheader
  generalize (if kind = .map then count / 2 else count) = units at hheader
  by_cases hunits : units < UInt32.size
  · rw [if_pos hunits] at hheader
    exact List.ne_nil_of_length_pos
      (Header.decode_size_pos (Header.decode_encoded hheader)).1
  · rw [if_neg hunits] at hheader
    cases hheader

theorem Orderly.complete (horderly : builder.Orderly) (hcomplete : builder.complete = .ok after) :
    after.Orderly ∧ builder.depth = after.depth + 1 ∧ after.contents = builder.contents := by
  unfold Builder.complete at hcomplete
  split at hcomplete
  · cases hcomplete
  · next top outer hbuilds =>
      split at hcomplete
      · cases hcomplete
      · next header hheader =>
          cases hcomplete
          refine ⟨horderly.fill hbuilds (header_ne_nil hheader), ?_, rfl⟩
          rw [depth, hbuilds, List.length_cons, depth]

end Builder
end MessagePack
