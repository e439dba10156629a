import MessagePack.Writer.Builder

/-!
What a builder holds. The pages and slots of the open builds stand for one text for each build:
its bytes with the headers of the builds completed in it at their places.
-/

namespace MessagePack
namespace Builder

/-- Paged bytes that start at `offset`, with every header put in at its place. -/
def weave (offset : Nat) (bytes : Bytes) : List Slot → Bytes
  | [] => bytes
  | slot :: slots =>
      bytes.take (slot.offset - offset) ++ slot.header ++
        weave (offset + (bytes.take (slot.offset - offset)).length)
          (bytes.drop (slot.offset - offset)) slots

theorem weave_nil (offset : Nat) (slots : List Slot) :
    weave offset [] slots = (slots.map Slot.header).flatten := by
  induction slots generalizing offset with
  | nil => rfl
  | cons slot slots ih => simp [weave, ih]

private theorem weave_append_left (offset : Nat) (bytes more : Bytes) (slots : List Slot)
    (hbeyond : ∀ slot ∈ slots.head?, offset + bytes.length ≤ slot.offset) :
    weave offset (bytes ++ more) slots =
      bytes ++ weave (offset + bytes.length) more slots := by
  cases slots with
  | nil => rfl
  | cons slot slots =>
      have hoffset := hbeyond slot rfl
      have hcut : slot.offset - offset =
          bytes.length + (slot.offset - (offset + bytes.length)) := by
        omega
      simp only [weave]
      rw [hcut, List.take_length_add_append, List.drop_length_add_append]
      simp [List.append_assoc, Nat.add_assoc]

theorem weave_append (offset : Nat) (bytes more : Bytes) (slots later : List Slot)
    (hwithin : ∀ slot ∈ slots, slot.offset ≤ offset + bytes.length)
    (hbeyond : ∀ slot ∈ later.head?, offset + bytes.length ≤ slot.offset) :
    weave offset (bytes ++ more) (slots ++ later) =
      weave offset bytes slots ++ weave (offset + bytes.length) more later := by
  induction slots generalizing offset bytes with
  | nil => exact weave_append_left offset bytes more later hbeyond
  | cons slot slots ih =>
      have hcut : slot.offset - offset ≤ bytes.length := by
        have := hwithin slot (by simp)
        omega
      have hlength : offset + (bytes.take (slot.offset - offset)).length +
          (bytes.drop (slot.offset - offset)).length = offset + bytes.length := by
        simp only [List.length_take, List.length_drop]
        omega
      have htail := ih (offset + (bytes.take (slot.offset - offset)).length)
        (bytes.drop (slot.offset - offset))
        (by rw [hlength]; exact fun other hother => hwithin other (by simp [hother]))
        (by rw [hlength]; exact hbeyond)
      simp only [List.cons_append, weave]
      rw [List.take_append_of_le_length hcut, List.drop_append_of_le_length hcut, htail,
        hlength]
      simp [List.append_assoc]

theorem flatten_splicePage (offset : Nat) (page more : Bytes) (slots : List Slot) :
    (splicePage offset page slots).1.flatten ++
        weave (offset + page.length) more (splicePage offset page slots).2 =
      weave offset (page ++ more) slots := by
  fun_induction splicePage offset page slots with
  | case1 offset page => simp [weave]
  | case2 offset page slot slots hwithin cut before pieces rest hsplice ih =>
      have hcut : cut ≤ page.length := by omega
      have hlength : offset + before.length + (page.drop cut).length =
          offset + page.length := by
        simp only [before, List.length_take, List.length_drop]
        omega
      rw [hsplice, hlength] at ih
      simp only [List.flatten_cons, List.append_assoc]
      rw [ih, weave, List.take_append_of_le_length hcut, List.drop_append_of_le_length hcut]
      simp [before, cut, List.append_assoc]
  | case3 offset page slot slots hbeyond =>
      rw [weave_append_left offset page more (slot :: slots) (by
        intro first hfirst
        cases hfirst
        omega)]
      simp

theorem flatten_splicePages (offset : Nat) (pages : List Bytes) (slots : List Slot) :
    (splicePages offset pages slots).flatten = weave offset pages.flatten slots := by
  induction pages generalizing offset slots with
  | nil => simp [splicePages, weave_nil]
  | cons page pages ih =>
      simp only [splicePages, List.flatten_append, List.flatten_cons]
      rw [ih, flatten_splicePage]

def contents (builder : Builder) : Bytes :=
  (builder.pages.toList.map Array.toList).flatten

theorem flatten_spliced (builder : Builder) :
    builder.spliced.flatten = weave 0 builder.contents builder.slots.toList :=
  flatten_splicePages 0 _ _

theorem modify_middle (before after : List α) (item : α) (change : α → α) :
    (before ++ item :: after).modify before.length change = before ++ change item :: after := by
  rw [List.modify_eq_take_cons_drop (by simp)]
  simp

/-! Appending to the pages. -/

/-- A byte goes to the last page, or to a new one where that is full or there is none. -/
inductive Appended (byte : UInt8) (builder : Builder) : Builder → Prop
  | last {full : Array (Array UInt8)} {page : Array UInt8} (hpages : builder.pages = full.push page)
      (hroom : page.size ≠ builder.pageSize) :
      Appended byte builder
        { builder with pages := full.push (page.push byte), length := builder.length + 1 }
  | first (hpages : builder.pages = #[]) :
      Appended byte builder { builder with pages := #[#[byte]], length := builder.length + 1 }
  | next {full : Array (Array UInt8)} {page : Array UInt8} (hpages : builder.pages = full.push page)
      (hfull : page.size = builder.pageSize) :
      Appended byte builder
        { builder with pages := (full.push page).push #[byte], length := builder.length + 1 }

theorem Appended.contents {byte : UInt8} {builder after : Builder}
    (happended : Appended byte builder after) : after.contents = builder.contents ++ [byte] := by
  cases happended with
  | last hpages | first hpages | next hpages => simp [Builder.contents, hpages]

theorem appendByte_eq_ok {byte : UInt8} {builder after : Builder}
    (happend : builder.appendByte byte = .ok after) : Appended byte builder after := by
  unfold appendByte at happend
  cases hback : builder.pages.back? with
  | none =>
      have hpages : builder.pages = #[] := Array.back?_eq_none_iff.mp hback
      simp only [hback, Option.any_none, Bool.false_eq_true, if_false] at happend
      split at happend
      · cases happend
      · cases happend
        rw [hpages]
        exact .first hpages
  | some page =>
      obtain ⟨full, hpages⟩ := Array.back?_eq_some_iff.mp hback
      simp only [hback, Option.any_some, ne_eq, decide_not, Bool.not_eq_true',
        decide_eq_false_iff_not] at happend
      by_cases hfull : page.size = builder.pageSize
      · rw [if_neg (not_not_intro hfull)] at happend
        split at happend
        · cases happend
        · cases happend
          rw [hpages]
          exact .next hpages hfull
      · rw [if_pos hfull] at happend
        cases happend
        have hmodify : builder.pages.modify (builder.pages.size - 1) (·.push byte) =
            full.push (page.push byte) := by
          apply Array.ext'
          have hlast : builder.pages.size - 1 = full.toList.length := by simp [hpages]
          rw [Array.toList_modify, hlast, hpages, Array.toList_push, modify_middle,
            Array.toList_push]
        rw [hmodify]
        exact .last hpages hfull

private theorem appendByte_ok (byte : UInt8) {builder : Builder}
    (hsize : builder.pageSize ≤ maxPage) :
    ∃ pages, builder.appendByte byte =
        .ok { builder with pages, length := builder.length + 1 } ∧
      (pages.toList.map Array.toList).flatten = builder.contents ++ [byte] := by
  obtain ⟨after, happend⟩ : ∃ after, builder.appendByte byte = .ok after := by
    unfold appendByte
    split
    · exact ⟨_, rfl⟩
    · rw [if_neg (Nat.not_lt.mpr hsize)]
      exact ⟨_, rfl⟩
  have hcontents := (appendByte_eq_ok happend).contents
  cases appendByte_eq_ok happend with
  | last | first | next => exact ⟨_, happend, hcontents⟩

theorem append_ok (bytes : Bytes) (builder : Builder) (hsize : builder.pageSize ≤ maxPage) :
    ∃ pages, builder.append bytes =
        .ok { builder with pages, length := builder.length + bytes.length } ∧
      (pages.toList.map Array.toList).flatten = builder.contents ++ bytes := by
  induction bytes generalizing builder with
  | nil => exact ⟨builder.pages, rfl, by simp [contents]⟩
  | cons byte bytes ih =>
      obtain ⟨pages, hbyte, hpages⟩ := appendByte_ok byte hsize
      obtain ⟨all, hall, hcontents⟩ :=
        ih { builder with pages, length := builder.length + 1 } hsize
      refine ⟨all, ?_, ?_⟩
      · rw [append, hbyte]
        simp only [hall, List.length_cons, Nat.add_assoc, Nat.add_comm 1]
      · rw [hcontents, contents, hpages]
        simp

theorem append_of_large {builder : Builder} (hsize : maxPage < builder.pageSize)
    (hpages : builder.pages = #[]) {bytes : Bytes} (hbytes : bytes ≠ []) :
    builder.append bytes = .error (.resource builder.pageSize) := by
  cases bytes with
  | nil => exact absurd rfl hbytes
  | cons byte bytes => simp [append, appendByte, hpages, hsize]

end Builder

/-! An open build with what it holds so far. -/

structure Layer where
  kind : Compound
  count : Nat := 0
  nested : Nat := 0
  text : Bytes := []

namespace Layer

/-! Counts are kept by the innermost layer. -/

def countValue : List Layer → List Layer
  | [] => []
  | top :: outer =>
      (if top.nested = 0 then { top with count := top.count + 1 } else top) :: outer

def openCounted : List Layer → List Layer
  | [] => []
  | top :: outer => { top with nested := top.nested + 1 } :: outer

end Layer

namespace Builder

/-- Builds, paged bytes and slots that stand for layers, innermost first. The slots behind the
one a build reserves belong to the builds completed in it. -/
inductive Holds : List Build → Bytes → List Slot → List Layer → Prop
  | none : Holds [] [] [] []
  | layer {builds bytes slots layers} {kind : Compound} {count nested : Nat}
      {more : Bytes} {inner : List Slot} (houter : Holds builds bytes slots layers)
      (hinner : ∀ slot ∈ inner, slot.offset ≤ bytes.length + more.length) :
      Holds ({ kind, count, nested, slot := slots.length } :: builds) (bytes ++ more)
        (slots ++ { offset := bytes.length } :: inner)
        ({ kind, count, nested, text := weave bytes.length more inner } :: layers)

namespace Holds

variable {builds : List Build} {bytes : Bytes} {slots : List Slot} {layers : List Layer}
  {build : Build} {layer : Layer}

theorem nil_iff (hholds : Holds builds bytes slots layers) : builds = [] ↔ layers = [] := by
  cases hholds <;> simp

theorem length_eq (hholds : Holds builds bytes slots layers) : builds.length = layers.length := by
  induction hholds with
  | none => rfl
  | layer _ _ ih => simp [ih]

theorem recount (count nested : Nat)
    (hholds : Holds (build :: builds) bytes slots (layer :: layers)) :
    Holds ({ build with count, nested } :: builds) bytes slots
      ({ layer with count, nested } :: layers) := by
  cases hholds with
  | layer houter hinner => exact .layer houter hinner

theorem append (written : Bytes) (hholds : Holds builds bytes slots (layer :: layers)) :
    Holds builds (bytes ++ written) slots
      ({ layer with text := layer.text ++ written } :: layers) := by
  cases hholds with
  | @layer _ bytes _ _ _ _ _ more inner houter hinner =>
      have hweave := weave_append bytes.length more written inner [] hinner (by simp)
      rw [List.append_nil, weave] at hweave
      rw [← hweave, List.append_assoc]
      refine .layer houter fun slot hslot => ?_
      have := hinner slot hslot
      simp only [List.length_append]
      omega

theorem begin (kind : Compound) (hholds : Holds builds bytes slots layers) :
    Holds ({ kind, slot := slots.length } :: builds) bytes (slots ++ [{ offset := bytes.length }])
      ({ kind } :: layers) := by
  have hlayer : Holds ({ kind, slot := slots.length } :: builds) (bytes ++ [])
      (slots ++ [{ offset := bytes.length }]) ({ kind } :: layers) :=
    .layer hholds (by simp)
  rwa [List.append_nil] at hlayer

/-- A completed build becomes a part of the build around it. -/
theorem complete {outer : Layer} (header : Bytes)
    (hholds : Holds (build :: builds) bytes slots (layer :: outer :: layers)) :
    Holds builds bytes (slots.modify build.slot fun slot => { slot with header })
      ({ outer with text := outer.text ++ header ++ layer.text } :: layers) := by
  cases hholds with
  | @layer _ _ _ _ _ _ _ more inner houter hinner =>
      rw [modify_middle]
      cases houter with
      | @layer _ bytes slots _ _ _ _ before earlier hrest hearlier =>
          have hweave := weave_append bytes.length before more earlier
            ({ offset := (bytes ++ before).length, header } :: inner)
            (fun slot hslot => hearlier slot hslot) (by simp)
          have hslot : weave (bytes.length + before.length) more
              ({ offset := (bytes ++ before).length, header } :: inner) =
                header ++ weave (bytes ++ before).length more inner := by
            simp [weave]
          rw [hslot] at hweave
          simp only [List.append_assoc, List.cons_append]
          rw [← hweave]
          refine .layer hrest fun slot hslot => ?_
          simp only [List.mem_append, List.mem_cons] at hslot
          simp only [List.length_append] at hinner ⊢
          rcases hslot with hslot | rfl | hslot
          · have := hearlier slot hslot
            omega
          · simp only [List.length_append]
            omega
          · have := hinner slot hslot
            omega

theorem complete_outermost (header : Bytes) (hholds : Holds [build] bytes slots [layer]) :
    weave 0 bytes (slots.modify build.slot fun slot => { slot with header }) =
      header ++ layer.text := by
  cases hholds with
  | layer houter hinner =>
      cases houter
      simp [weave]

end Holds
end Builder
end MessagePack
