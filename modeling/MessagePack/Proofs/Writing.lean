import MessagePack.Proofs.Calls
import MessagePack.Proofs.Encoding

/-!
Writing on a draft: how far a value, a compound or a build takes it, as long as everything is
called in its place.
-/

namespace MessagePack

namespace Layer

/-- `count` values written in the innermost build, unless a compound in it takes them. -/
def counted (count : Nat) : List Layer → List Layer
  | [] => []
  | top :: outer =>
      if top.nested = 0 then
        { top with count := top.count + count } :: outer
      else
        top :: outer

theorem countValue_eq (layers : List Layer) : countValue layers = counted 1 layers := by
  cases layers with
  | nil => rfl
  | cons top outer =>
      by_cases hnested : top.nested = 0 <;> simp [countValue, counted, hnested]

theorem counted_counted (first second : Nat) (layers : List Layer) :
    counted second (counted first layers) = counted (first + second) layers := by
  cases layers with
  | nil => rfl
  | cons top outer =>
      by_cases hnested : top.nested = 0 <;> simp [counted, hnested, Nat.add_assoc]

theorem counted_openCounted (count : Nat) (layers : List Layer) :
    counted count (openCounted layers) = openCounted layers := by
  cases layers <;> simp [counted, openCounted]

end Layer

namespace Draft

variable {config : Config} {draft : Draft} {kind : Compound} {count : Nat}

/-- With `count` more values, which are these bytes. -/
def wrote (count : Nat) (bytes : Bytes) (draft : Draft) : Draft :=
  { draft with
    nesting := draft.nesting.charged count
    layers := Layer.counted count draft.layers }.append bytes

/-- With a value begun that is counted on its own. -/
def opened (frame : Frame) (bytes : Bytes) (draft : Draft) : Draft :=
  { draft with
    nesting := (draft.nesting.charged 1).pushed frame
    layers := Layer.openCounted (Layer.countValue draft.layers) }.append bytes

/-- With a build begun, in which `count` values are these bytes. -/
def begun (kind : Compound) (count : Nat) (bytes : Bytes) (draft : Draft) : Draft :=
  { draft with
    nesting := (draft.nesting.charged 1).pushed { kind, remaining := 0, openEnded := true }
    layers := { kind, count, nested := 0, text := bytes } :: Layer.countValue draft.layers }

@[simp] theorem nesting_wrote (bytes : Bytes) :
    (draft.wrote count bytes).nesting = draft.nesting.charged count :=
  nesting_append bytes _

@[simp] theorem nesting_opened (frame : Frame) (bytes : Bytes) :
    (draft.opened frame bytes).nesting = (draft.nesting.charged 1).pushed frame :=
  nesting_append bytes _

theorem append_renest (nesting : Nesting) (bytes : Bytes) (draft : Draft) :
    { draft.append bytes with nesting } = { draft with nesting }.append bytes := by
  obtain ⟨old, layers, text⟩ := draft
  cases layers <;> rfl

theorem append_append (first second : Bytes) :
    (draft.append first).append second = draft.append (first ++ second) := by
  obtain ⟨nesting, layers, text⟩ := draft
  cases layers <;> simp [append]

theorem wrote_append (draft : Draft) (first second : Bytes) :
    (draft.append first).wrote count second = draft.wrote count (first ++ second) := by
  obtain ⟨nesting, layers, text⟩ := draft
  cases layers with
  | nil => simp [wrote, append, Layer.counted]
  | cons top outer =>
      by_cases hnested : top.nested = 0 <;> simp [wrote, append, Layer.counted, hnested]

theorem wrote_wrote (more : Nat) (first second : Bytes) :
    (draft.wrote count first).wrote more second = draft.wrote (count + more) (first ++ second) := by
  obtain ⟨nesting, layers, text⟩ := draft
  refine (wrote_append _ first second).trans ?_
  simp only [wrote, Nesting.charged_charged, Layer.counted_counted]

theorem wrote_zero : draft.wrote 0 [] = draft := by
  obtain ⟨nesting, layers, text⟩ := draft
  cases layers <;> simp [wrote, append, Layer.counted]

theorem wrote_opened (header bytes : Bytes) :
    (draft.opened { kind, remaining := count } header).wrote count bytes =
      draft.opened { kind, remaining := 0 } (header ++ bytes) := by
  rw [opened, wrote_append]
  simp only [wrote, opened, Nesting.charged_pushed, Layer.counted_openCounted]

theorem wrote_begun (more : Nat) (first second : Bytes) :
    (draft.begun kind count first).wrote more second =
      draft.begun kind (count + more) (first ++ second) := by
  simp [wrote, begun, append, Layer.counted, Nesting.charged_openEnded]

/-! What single calls do. -/

/-- The pages of an open build can be asked for. -/
def Paged (config : Config) (draft : Draft) : Prop :=
  draft.layers ≠ [] → config.builderPageSize ≤ Builder.maxPage

theorem Paged.of_layers {later : Draft} (hpaged : draft.Paged config)
    (hlayers : draft.layers = [] → later.layers = []) : later.Paged config :=
  fun hlater => hpaged fun hnil => hlater (hlayers hnil)

theorem emit_ok (bytes : Bytes) (draft : Draft) (hpaged : draft.Paged config) :
    emit config bytes draft = (.ok (), draft.append bytes) := by
  rw [emit, if_neg]
  intro hlarge
  have := hpaged hlarge.1
  omega

theorem track_ok {operation : Nesting → Except Error Nesting} {nesting : Nesting}
    (hoperation : operation draft.nesting = .ok nesting) :
    track operation draft = (.ok (), { draft with nesting }) :=
  Attempt.update_of_ok hoperation

theorem track_error {operation : Nesting → Except Error Nesting} {error : Error}
    (hoperation : operation draft.nesting = .error error) :
    track operation draft = (.error error, draft) :=
  Attempt.update_of_error hoperation

theorem tag_error {tag : Tag} {error : Error}
    (hheader : Header.encode config.tagOptions tag = .error error) :
    Draft.tag config tag draft = (.error error, draft) := by
  rw [Draft.tag, hheader]
  rfl

theorem tag_scalar {tag : Tag} {header : Bytes} (hopens : tag.opens? = none)
    (hheader : Header.encode config.tagOptions tag = .ok header)
    (haccepts : draft.nesting.Accepts 1) (hpaged : draft.Paged config) :
    Draft.tag config tag draft = (.ok (), draft.wrote 1 header) := by
  have henter : (draft.nesting.charged 1).enterTag tag = .ok (draft.nesting.charged 1) := by
    simp only [Nesting.enterTag, hopens]
  rw [Draft.tag, hheader, Attempt.lift_bind_ok, Attempt.bind_of_ok (track_ok haccepts.element),
    Attempt.bind_of_ok (track_ok henter), Attempt.modify_bind]
  simp only [Tag.isCompound, hopens, Option.isSome_none, Bool.false_eq_true, if_false]
  refine (emit_ok header _ (hpaged.of_layers fun hnil => ?_)).trans ?_
  · simp [countValue, hnil, Layer.countValue]
  · simp only [countValue, Layer.countValue_eq, wrote]

theorem tag_opens {tag : Tag} {header : Bytes} (hopens : tag.opens? = some (kind, count))
    (hheader : Header.encode config.tagOptions tag = .ok header)
    (haccepts : draft.nesting.Accepts 1) (hpaged : draft.Paged config) {room : Room}
    (hroom : draft.nesting.room.deeper = .ok room) :
    Draft.tag config tag draft =
      (.ok (), draft.opened { kind, remaining := count } header) := by
  have henter : (draft.nesting.charged 1).enterTag tag =
      .ok ((draft.nesting.charged 1).pushed { kind, remaining := count }) := by
    simp only [Nesting.enterTag, hopens, Nesting.enter, Nesting.push_eq, Nesting.room_charged,
      hroom]
    rfl
  rw [Draft.tag, hheader, Attempt.lift_bind_ok, Attempt.bind_of_ok (track_ok haccepts.element),
    Attempt.bind_of_ok (track_ok henter), Attempt.modify_bind]
  simp only [Tag.isCompound, hopens, Option.isSome_some, if_true]
  rw [Attempt.modify_bind]
  refine emit_ok header _ (hpaged.of_layers fun hnil => ?_)
  simp [openCounted, countValue, hnil, Layer.countValue, Layer.openCounted]

theorem tag_full {tag : Tag} {header : Bytes} (hopens : tag.opens? = some (kind, count))
    (hheader : Header.encode config.tagOptions tag = .ok header)
    (haccepts : draft.nesting.Accepts 1) {error : Error}
    (hroom : draft.nesting.room.deeper = .error error) :
    ∃ after, Draft.tag config tag draft = (.error error, after) := by
  have henter : (draft.nesting.charged 1).enterTag tag = .error error := by
    simp only [Nesting.enterTag, hopens, Nesting.enter, Nesting.push_eq, Nesting.room_charged,
      hroom]
    rfl
  rw [Draft.tag, hheader, Attempt.lift_bind_ok, Attempt.bind_of_ok (track_ok haccepts.element),
    Attempt.bind_of_error (track_error henter)]
  exact ⟨_, rfl⟩

theorem bytes_opened {header : Bytes} (payload : Bytes) (hkind : kind.holdsBytes = true)
    (hpaged : draft.Paged config) :
    Draft.bytes config payload (draft.opened { kind, remaining := payload.length } header) =
      (.ok (), draft.opened { kind, remaining := 0 } (header ++ payload)) := by
  have hbytes : (draft.opened { kind, remaining := payload.length } header).nesting.bytes
      payload.length = .ok ((draft.nesting.charged 1).pushed { kind, remaining := 0 }) := by
    rw [nesting_opened, Nesting.bytes_pushed hkind]
  rw [Draft.bytes, Attempt.bind_of_ok (track_ok hbytes), opened, append_renest, emit_ok,
    append_append]
  · rfl
  · refine hpaged.of_layers fun hnil => ?_
    simp [append, hnil, Layer.countValue, Layer.openCounted]

theorem finishCompound_opened (text : Bytes) (draft : Draft) :
    finishCompound kind (draft.opened { kind, remaining := 0 } text) =
      (.ok (), draft.wrote 1 text) := by
  have hleave : ((draft.nesting.charged 1).pushed { kind, remaining := 0 }).leave kind =
      .ok (draft.nesting.charged 1) :=
    Nesting.leave_pushed false
  have hclose : closeCounted (draft.opened { kind, remaining := 0 } text) = (.ok (),
      { draft.wrote 1 text with
        nesting := (draft.nesting.charged 1).pushed { kind, remaining := 0 } }) := by
    obtain ⟨nesting, layers, before⟩ := draft
    cases layers with
    | nil => rfl
    | cons top outer =>
        by_cases hnested : top.nested = 0 <;>
          simp [closeCounted, opened, wrote, append, Layer.countValue, Layer.openCounted,
            Layer.counted, hnested]
  rw [finishCompound, Attempt.bind_of_ok hclose, track_ok hleave]
  simp only [append_renest, wrote]

theorem beginBuild_ok (hbuilder : config.builder = true) (haccepts : draft.nesting.Accepts 1)
    {room : Room} (hroom : draft.nesting.room.deeper = .ok room) :
    beginBuild config kind draft = (.ok (), draft.begun kind 0 []) := by
  have henter : (draft.nesting.charged 1).enterOpenEnded kind = .ok
      ((draft.nesting.charged 1).pushed { kind, remaining := 0, openEnded := true }) := by
    rw [Nesting.enterOpenEnded, Nesting.push_eq, Nesting.room_charged, hroom]
    rfl
  rw [beginBuild, requireFeature, hbuilder, if_pos rfl, Attempt.lift_bind_ok,
    Attempt.bind_of_ok (track_ok haccepts.element), Attempt.bind_of_ok (track_ok henter)]
  rfl

theorem beginBuild_full (hbuilder : config.builder = true)
    (haccepts : draft.nesting.Accepts 1) {error : Error}
    (hroom : draft.nesting.room.deeper = .error error) :
    ∃ after, beginBuild config kind draft = (.error error, after) := by
  have henter : (draft.nesting.charged 1).enterOpenEnded kind = .error error := by
    rw [Nesting.enterOpenEnded, Nesting.push_eq, Nesting.room_charged, hroom]
    rfl
  rw [beginBuild, requireFeature, hbuilder, if_pos rfl, Attempt.lift_bind_ok,
    Attempt.bind_of_ok (track_ok haccepts.element), Attempt.bind_of_error (track_error henter)]
  exact ⟨_, rfl⟩

theorem completeBuild_ok {header body : Bytes} (hbuilder : config.builder = true)
    (hpairs : kind = .map → count % 2 = 0)
    (hheader : Builder.header config.tagOptions kind count = .ok header) (draft : Draft) :
    completeBuild config kind (draft.begun kind count body) =
      (.ok (), draft.wrote 1 (header ++ body)) := by
  have hcheck : checkComplete config kind (draft.begun kind count body) = .ok () := by
    have hkey : ¬(kind = .map ∧ count % 2 ≠ 0) := fun ⟨hmap, hodd⟩ => hodd (hpairs hmap)
    simp only [checkComplete, requireFeature, hbuilder, begun, if_true, ne_eq, not_true_eq_false,
      if_false]
    rw [if_neg hkey]
    rfl
  have hleave : (draft.begun kind count body).nesting.leave kind =
      .ok (draft.nesting.charged 1) :=
    Nesting.leave_pushed true
  rw [completeBuild, Attempt.get_bind, hcheck, Attempt.lift_bind_ok,
    Attempt.bind_of_ok (track_ok hleave)]
  simp only [fold, begun, hheader, wrote, Layer.countValue_eq]

/-! What calls write, when it is an encoding or the error met on the way to it. -/

/-- The attempt adds `count` values with this encoding to the draft, or comes to its error. -/
def Writes (attempt : Attempt Draft Unit) (draft : Draft) (count : Nat) :
    Except Error Bytes → Prop
  | .ok bytes => attempt draft = (.ok (), draft.wrote count bytes)
  | .error error => ∃ after, attempt draft = (.error error, after)

theorem Writes.nothing : Writes (pure ()) draft 0 (.ok []) := by
  rw [Writes, wrote_zero]
  rfl

theorem Writes.joined {first next : Attempt Draft Unit} {more : Nat}
    {encoded rest : Except Error Bytes} (hfirst : Writes first draft count encoded)
    (hnext : ∀ bytes, encoded = .ok bytes → Writes next (draft.wrote count bytes) more rest) :
    Writes (do first; next) draft (count + more) (Value.joined encoded rest) := by
  cases encoded with
  | error error =>
      obtain ⟨after, hafter⟩ := hfirst
      exact ⟨after, Attempt.bind_of_error hafter⟩
  | ok bytes =>
      have hrest := hnext bytes rfl
      cases rest with
      | error error =>
          obtain ⟨after, hafter⟩ := hrest
          exact ⟨after, (Attempt.bind_of_ok hfirst).trans hafter⟩
      | ok later =>
          show (first >>= fun _ => next) draft =
            (.ok (), draft.wrote (count + more) (bytes ++ later))
          rw [Attempt.bind_of_ok hfirst, hrest, wrote_wrote]

theorem Writes.scalar {tag : Tag} (hopens : tag.opens? = none)
    (haccepts : draft.nesting.Accepts 1) (hpaged : draft.Paged config) :
    Writes (Draft.tag config tag) draft 1 (Header.encode config.tagOptions tag) := by
  cases hheader : Header.encode config.tagOptions tag with
  | error error => exact ⟨draft, tag_error hheader⟩
  | ok header => exact tag_scalar hopens hheader haccepts hpaged

theorem Writes.payload {header : UInt32 → Tag} {kind : Compound} {content : Bytes}
    (hopens : (header (UInt32.ofNat content.length)).opens? = some (kind, content.length))
    (hkind : kind.holdsBytes = true) (hlength : content.length < UInt32.size)
    (haccepts : draft.nesting.Accepts 1) (hpaged : draft.Paged config) :
    Writes (Draft.payload config header kind content) draft 1
      (Value.enclosed config.tagOptions draft.nesting.room
        (header (UInt32.ofNat content.length)) fun _ => .ok content) := by
  rw [Draft.payload, if_pos hlength]
  cases hheader : Header.encode config.tagOptions (header (UInt32.ofNat content.length)) with
  | error error =>
      rw [Value.enclosed, hheader]
      exact ⟨draft, Attempt.bind_of_error (tag_error hheader)⟩
  | ok text =>
      rw [Value.enclosed, hheader]
      cases hroom : draft.nesting.room.deeper with
      | error error =>
          obtain ⟨after, hafter⟩ := tag_full hopens hheader haccepts hroom
          exact ⟨after, Attempt.bind_of_error hafter⟩
      | ok room =>
          show _ = (Except.ok (), draft.wrote 1 (text ++ content))
          rw [Attempt.bind_of_ok (tag_opens hopens hheader haccepts hpaged hroom),
            Attempt.bind_of_ok (bytes_opened content hkind hpaged), finishCompound_opened]

theorem Paged.opened (hpaged : draft.Paged config) (frame : Frame) (bytes : Bytes) :
    (draft.opened frame bytes).Paged config := by
  refine hpaged.of_layers fun hnil => ?_
  simp [Draft.opened, append, hnil, Layer.countValue, Layer.openCounted]

theorem Paged.wrote (hpaged : draft.Paged config) (count : Nat) (bytes : Bytes) :
    (draft.wrote count bytes).Paged config := by
  refine hpaged.of_layers fun hnil => ?_
  simp [Draft.wrote, append, hnil, Layer.counted]

theorem Writes.counted {tag : Tag} {inner : Attempt Draft Unit}
    {content : Room → Except Error Bytes} (hopens : tag.opens? = some (kind, count))
    (hkind : kind.holdsBytes = false) (haccepts : draft.nesting.Accepts 1)
    (hpaged : draft.Paged config)
    (hinner : ∀ later : Draft, later.nesting.Accepts count → later.Paged config →
      Writes inner later count (content later.nesting.room)) :
    Writes (do Draft.tag config tag; inner; finishCompound kind) draft 1
      (Value.enclosed config.tagOptions draft.nesting.room tag content) := by
  rw [Value.enclosed]
  cases hheader : Header.encode config.tagOptions tag with
  | error error => exact ⟨draft, Attempt.bind_of_error (tag_error hheader)⟩
  | ok header =>
      cases hroom : draft.nesting.room.deeper with
      | error error =>
          obtain ⟨after, hafter⟩ := tag_full hopens hheader haccepts hroom
          exact ⟨after, Attempt.bind_of_error hafter⟩
      | ok room =>
          have htag := tag_opens hopens hheader haccepts hpaged hroom
          have hwrites := hinner (draft.opened { kind, remaining := count } header)
            (by rw [nesting_opened]; exact Nesting.accepts_pushed hkind 0 _)
            (hpaged.opened _ _)
          rw [nesting_opened, Nesting.room_pushed (by rw [Nesting.room_charged]; exact hroom)]
            at hwrites
          simp only [bind, Except.bind]
          cases hcontent : content room with
          | error error =>
              rw [hcontent] at hwrites
              obtain ⟨after, hafter⟩ := hwrites
              exact ⟨after, (Attempt.bind_of_ok htag).trans (Attempt.bind_of_error hafter)⟩
          | ok body =>
              rw [hcontent] at hwrites
              refine (Attempt.bind_of_ok htag).trans ((Attempt.bind_of_ok hwrites).trans ?_)
              rw [wrote_opened, finishCompound_opened]

theorem Writes.built {tag : Tag} {header : Bytes} {inner : Attempt Draft Unit}
    {content : Room → Except Error Bytes} (hbuilder : config.builder = true)
    (hsize : config.builderPageSize ≤ Builder.maxPage) (hkind : kind.holdsBytes = false)
    (hpairs : kind = .map → count % 2 = 0)
    (htag : Header.encode config.tagOptions tag = .ok header)
    (hheader : Builder.header config.tagOptions kind count = .ok header)
    (haccepts : draft.nesting.Accepts 1)
    (hinner : ∀ later : Draft, later.nesting.Accepts count → later.Paged config →
      Writes inner later count (content later.nesting.room)) :
    Writes (do beginBuild config kind; inner; completeBuild config kind) draft 1
      (Value.enclosed config.tagOptions draft.nesting.room tag content) := by
  rw [Value.enclosed, htag]
  cases hroom : draft.nesting.room.deeper with
  | error error =>
      obtain ⟨after, hafter⟩ := beginBuild_full hbuilder haccepts hroom
      exact ⟨after, Attempt.bind_of_error hafter⟩
  | ok room =>
      have hbegin : beginBuild config kind draft = (.ok (), draft.begun kind 0 []) :=
        beginBuild_ok hbuilder haccepts hroom
      have hwrites := hinner (draft.begun kind 0 []) (Nesting.accepts_openEnded hkind _)
        fun _ => hsize
      rw [show (draft.begun kind 0 []).nesting.room = room from
        Nesting.room_pushed (by rw [Nesting.room_charged]; exact hroom) _] at hwrites
      simp only [bind, Except.bind]
      cases hcontent : content room with
      | error error =>
          rw [hcontent] at hwrites
          obtain ⟨after, hafter⟩ := hwrites
          exact ⟨after, (Attempt.bind_of_ok hbegin).trans (Attempt.bind_of_error hafter)⟩
      | ok body =>
          rw [hcontent] at hwrites
          refine (Attempt.bind_of_ok hbegin).trans ((Attempt.bind_of_ok hwrites).trans ?_)
          rw [wrote_begun, Nat.zero_add, completeBuild_ok hbuilder hpairs hheader]
          rfl

/-- An array or map, its calls between those of its framing. -/
theorem Writes.framed {tag : UInt32 → Tag} {entries : Nat} {header : Bytes} {builds : Bool}
    {calls : List Writer.Call} {content : Room → Except Error Bytes} (framing : Value.Framing)
    (hframing : framing = .built → builds = true)
    (hbuilds : builds = true →
      config.builder = true ∧ config.builderPageSize ≤ Builder.maxPage)
    (hfits : entries < UInt32.size) (hkind : kind.holdsBytes = false)
    (hpairs : kind = .map → count % 2 = 0)
    (hopens : (tag (UInt32.ofNat entries)).opens? = some (kind, count))
    (htag : Header.encode config.tagOptions (tag (UInt32.ofNat entries)) = .ok header)
    (hheader : Builder.header config.tagOptions kind count = .ok header)
    (haccepts : draft.nesting.Accepts 1) (hpaged : draft.Paged config)
    (hinner : ∀ later : Draft, later.nesting.Accepts count → later.Paged config →
      Writes (run config calls) later count (content later.nesting.room)) :
    Writes (run config (framing.opening kind tag entries :: calls ++ [framing.closing kind]))
      draft 1 (Value.enclosed config.tagOptions draft.nesting.room (tag (UInt32.ofNat entries))
        content) := by
  rw [run_enclosed]
  cases framing with
  | counted =>
      rw [Value.Framing.opening, Value.Framing.count, Nat.min_eq_left (by omega)]
      exact .counted hopens hkind haccepts hpaged hinner
  | built =>
      obtain ⟨hbuilder, hsize⟩ := hbuilds (hframing rfl)
      exact .built hbuilder hsize hkind hpairs htag hheader haccepts hinner

end Draft
end MessagePack
