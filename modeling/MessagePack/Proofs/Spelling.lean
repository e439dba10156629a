import MessagePack.Proofs.Config
import MessagePack.Proofs.Writing

/-!
Writing a value. Whatever the framing of each of its arrays and maps, and wherever the writer is
flushed, the calls that spell a value write its encoding.
-/

namespace MessagePack
namespace Draft

variable {config : Config} {count : Nat}

theorem run_single (call : Writer.Call) : run config [call] = perform config call := by
  simp [run]

theorem header_array {options : TagOptions} (hcount : count < UInt32.size) :
    Builder.header options .array count =
      Header.encode options (.array (UInt32.ofNat count)) := by
  simp [Builder.header, hcount]

theorem header_map {options : TagOptions} (hpairs : count < UInt32.size) :
    Builder.header options .map (2 * count) =
      Header.encode options (.map (UInt32.ofNat count)) := by
  simp [Builder.header, hpairs]

theorem toNat_ofNat {n : Nat} (hn : n < UInt32.size) : (UInt32.ofNat n).toNat = n :=
  Nat.mod_eq_of_lt hn

mutual

/-- The induction over a value: what its calls add to any draft that takes one more value. -/
theorem writes {builds : Bool}
    (hbuilds : builds = true →
      config.builder = true ∧ config.builderPageSize ≤ Builder.maxPage) :
    (value : Value) → (calls : List Writer.Call) → (draft : Draft) →
      value.Spelled builds calls → value.Fits → draft.nesting.Accepts 1 → draft.Paged config →
      Writes (run config calls) draft 1 (value.encoding config.tagOptions draft.nesting.room)
  | .nil, _, _, .nil, _, haccepts, hpaged
  | .bool _, _, _, .bool _, _, haccepts, hpaged
  | .int _, _, _, .int _, _, haccepts, hpaged
  | .uint _, _, _, .uint _, _, haccepts, hpaged
  | .float _, _, _, .float _, _, haccepts, hpaged
  | .double _, _, _, .double _, _, haccepts, hpaged => by
      rw [run_single]
      exact .scalar rfl haccepts hpaged
  | .str _, _, _, .str _, hfits, haccepts, hpaged => by
      rw [run_single]
      exact .payload (by simp [Tag.opens?, toNat_ofNat hfits]) rfl hfits haccepts hpaged
  | .bin _, _, _, .bin _, hfits, haccepts, hpaged => by
      rw [run_single]
      exact .payload (by simp [Tag.opens?, toNat_ofNat hfits]) rfl hfits haccepts hpaged
  | .ext _ _, _, _, .ext _ _, hfits, haccepts, hpaged => by
      rw [run_single]
      exact .payload (by simp [Tag.opens?, toNat_ofNat hfits]) rfl hfits haccepts hpaged
  | .array items, _, draft, .array framing hframing hitems, ⟨hlength, hfits⟩, haccepts,
      hpaged => by
      refine .framed framing hframing hbuilds hlength rfl (fun hmap => by cases hmap)
        (by simp [Tag.opens?, toNat_ofNat hlength]) rfl (header_array hlength) haccepts hpaged ?_
      exact fun later haccepts hpaged =>
        writes_items hbuilds items _ later hitems hfits haccepts hpaged
  | .map entries, _, draft, .map framing hframing hentries, ⟨hlength, hfits⟩, haccepts,
      hpaged => by
      refine .framed framing hframing hbuilds hlength rfl
        (fun _ => Nat.mul_mod_right 2 entries.length)
        (by simp [Tag.opens?, toNat_ofNat hlength]) rfl (header_map hlength) haccepts hpaged ?_
      exact fun later haccepts hpaged =>
        writes_entries hbuilds entries _ later hentries hfits haccepts hpaged

theorem writes_items {builds : Bool}
    (hbuilds : builds = true →
      config.builder = true ∧ config.builderPageSize ≤ Builder.maxPage) :
    (items : List Value) → (calls : List Writer.Call) → (draft : Draft) →
      Value.SpelledItems builds items calls → Value.FitsItems items →
      draft.nesting.Accepts items.length → draft.Paged config →
      Writes (run config calls) draft items.length
        (Value.itemsEncoding config.tagOptions draft.nesting.room items)
  | [], _, _, .nil, _, _, _ => .nothing
  | item :: items, _, draft, .cons hitem hitems, ⟨hfits, hmore⟩, haccepts, hpaged => by
      rw [List.length_cons, Nat.add_comm] at haccepts ⊢
      rw [run_append]
      refine .joined (writes hbuilds item _ draft hitem hfits (haccepts.mono (by omega)) hpaged) ?_
      intro bytes _
      have hrest := writes_items hbuilds items _ (draft.wrote 1 bytes) hitems hmore
        (by rw [nesting_wrote]; exact haccepts.charged) (hpaged.wrote 1 bytes)
      rwa [nesting_wrote, Nesting.room_charged] at hrest

theorem writes_entries {builds : Bool}
    (hbuilds : builds = true →
      config.builder = true ∧ config.builderPageSize ≤ Builder.maxPage) :
    (entries : List (Value × Value)) → (calls : List Writer.Call) → (draft : Draft) →
      Value.SpelledEntries builds entries calls → Value.FitsEntries entries →
      draft.nesting.Accepts (2 * entries.length) → draft.Paged config →
      Writes (run config calls) draft (2 * entries.length)
        (Value.entriesEncoding config.tagOptions draft.nesting.room entries)
  | [], _, _, .nil, _, _, _ => .nothing
  | (key, value) :: entries, _, draft, .cons hkey hvalue hentries, ⟨hfits, hmore⟩, haccepts,
      hpaged => by
      obtain ⟨hvalid, hrest⟩ := hmore
      rw [List.length_cons, show 2 * (entries.length + 1) = 1 + (1 + 2 * entries.length) by omega]
        at haccepts ⊢
      rw [run_append]
      refine .joined (writes hbuilds key _ draft hkey hfits (haccepts.mono (by omega)) hpaged) ?_
      intro bytes _
      rw [run_append]
      have haccepts : (draft.wrote 1 bytes).nesting.Accepts (1 + 2 * entries.length) := by
        rw [nesting_wrote]
        exact haccepts.charged
      have hroom : (draft.wrote 1 bytes).nesting.room = draft.nesting.room := by
        rw [nesting_wrote, Nesting.room_charged]
      rw [← hroom]
      refine .joined (writes hbuilds value _ _ hvalue hvalid (haccepts.mono (by omega))
        (hpaged.wrote 1 bytes)) ?_
      intro more _
      have hlater := writes_entries hbuilds entries _ ((draft.wrote 1 bytes).wrote 1 more)
        hentries hrest (by rw [nesting_wrote]; exact haccepts.charged)
        ((hpaged.wrote 1 bytes).wrote 1 more)
      rwa [nesting_wrote, Nesting.room_charged] at hlater

end

theorem perform_flush {call : Writer.Call} (hflush : call.isFlush = true) :
    perform config call = pure () := by
  cases call with
  | flush => rfl
  | _ => cases hflush

theorem run_unflushed (calls : List Writer.Call) :
    run config (calls.filter fun call => !call.isFlush) = run config calls := by
  induction calls with
  | nil => rfl
  | cons call calls ih =>
      cases hflush : call.isFlush with
      | true => simp [hflush, run, perform_flush hflush, ih]
      | false => simp [hflush, run, ih]

end Draft

namespace Value

mutual

/-- The calls that write a value in one framing. -/
def calls (framing : Framing) : Value → List Writer.Call
  | .nil => [.tag .nil]
  | .bool value => [.tag (.bool value)]
  | .int value => [.tag (.int value)]
  | .uint value => [.tag (.uint value)]
  | .float bits => [.tag (.float bits)]
  | .double bits => [.tag (.double bits)]
  | .str text => [.str text]
  | .bin content => [.bin content]
  | .ext type content => [.ext type content]
  | .array items =>
      framing.opening .array .array items.length ::
        itemsCalls framing items ++ [framing.closing .array]
  | .map entries =>
      framing.opening .map .map entries.length ::
        entriesCalls framing entries ++ [framing.closing .map]

def itemsCalls (framing : Framing) : List Value → List Writer.Call
  | [] => []
  | item :: items => calls framing item ++ itemsCalls framing items

def entriesCalls (framing : Framing) : List (Value × Value) → List Writer.Call
  | [] => []
  | (key, value) :: entries =>
      calls framing key ++ (calls framing value ++ entriesCalls framing entries)

end

theorem Framing.perform_opening (framing : Framing) (kind : Compound)
    (header : UInt32 → Tag) (n : Nat) :
    Writer.State.perform (framing.opening kind header n) = framing.begin kind header n := by
  cases framing <;> rfl

theorem Framing.perform_closing (framing : Framing) (kind : Compound) :
    Writer.State.perform (framing.closing kind) = framing.finish kind := by
  cases framing <;> rfl

mutual

theorem run_calls (framing : Framing) :
    (value : Value) → Writer.State.run (value.calls framing) = value.write framing
  | .nil | .bool _ | .int _ | .uint _ | .float _ | .double _ | .str _ | .bin _ | .ext _ _ => by
      simp [calls, write, Writer.State.run, Writer.State.perform]
  | .array items => by
      simp [calls, write, Writer.State.run, Writer.State.run_append,
        framing.perform_opening, framing.perform_closing, run_itemsCalls framing items]
  | .map entries => by
      simp [calls, write, Writer.State.run, Writer.State.run_append,
        framing.perform_opening, framing.perform_closing, run_entriesCalls framing entries]

theorem run_itemsCalls (framing : Framing) :
    (items : List Value) →
      Writer.State.run (itemsCalls framing items) = writeItems framing items
  | [] => rfl
  | item :: items => by
      rw [itemsCalls, Writer.State.run_append, run_calls framing item,
        run_itemsCalls framing items, writeItems]

theorem run_entriesCalls (framing : Framing) :
    (entries : List (Value × Value)) →
      Writer.State.run (entriesCalls framing entries) = writeEntries framing entries
  | [] => rfl
  | (key, value) :: entries => by
      rw [entriesCalls, Writer.State.run_append, Writer.State.run_append,
        run_calls framing key, run_calls framing value, run_entriesCalls framing entries,
        writeEntries]

end

mutual

theorem spelled_calls {builds : Bool} {framing : Framing}
    (hframing : framing = .built → builds = true) :
    (value : Value) → value.Spelled builds (value.calls framing)
  | .nil => .nil
  | .bool value => .bool value
  | .int value => .int value
  | .uint value => .uint value
  | .float bits => .float bits
  | .double bits => .double bits
  | .str text => .str text
  | .bin content => .bin content
  | .ext type content => .ext type content
  | .array items => .array framing hframing (spelled_itemsCalls hframing items)
  | .map entries => .map framing hframing (spelled_entriesCalls hframing entries)

theorem spelled_itemsCalls {builds : Bool} {framing : Framing}
    (hframing : framing = .built → builds = true) :
    (items : List Value) → SpelledItems builds items (itemsCalls framing items)
  | [] => .nil
  | item :: items => .cons (spelled_calls hframing item) (spelled_itemsCalls hframing items)

theorem spelled_entriesCalls {builds : Bool} {framing : Framing}
    (hframing : framing = .built → builds = true) :
    (entries : List (Value × Value)) → SpelledEntries builds entries (entriesCalls framing entries)
  | [] => .nil
  | (key, value) :: entries =>
      .cons (spelled_calls hframing key) (spelled_calls hframing value)
        (spelled_entriesCalls hframing entries)

end

end Value

/-- The levels that a new writer may open. -/
def Config.writeRoom (config : Config) : Room :=
  (Draft.initial config {}).nesting.room

namespace Draft

variable {config : Config} {sink : Sink} {value : Value} {calls : List Writer.Call}

theorem outcome_unflushed (draft : Draft) :
    outcome config (calls.filter fun call => !call.isFlush) draft = outcome config calls draft := by
  rw [outcome, outcome, run_append, run_append, run_unflushed]

theorem outcome_of_spelled {builds : Bool}
    (hbuilds : builds = true →
      config.builder = true ∧ config.builderPageSize ≤ Builder.maxPage)
    (hfits : value.Fits) (hspelled : value.Spelled builds calls) :
    outcome config calls (initial config sink) =
      (value.encoding config.tagOptions config.writeRoom).map (sink.bytes ++ ·) := by
  have hwrites := writes hbuilds value calls (initial config sink) hspelled hfits
    (fun _ top htop => by cases htop) (fun hlayers => absurd rfl hlayers)
  rw [outcome, run_append]
  show _ = (value.encoding config.tagOptions (initial config sink).nesting.room).map _
  cases hencoding : value.encoding config.tagOptions (initial config sink).nesting.room with
  | error error =>
      rw [hencoding] at hwrites
      obtain ⟨after, hafter⟩ := hwrites
      rw [Attempt.bind_of_error hafter]
      rfl
  | ok bytes =>
      rw [hencoding] at hwrites
      rw [Attempt.bind_of_ok hwrites]
      rfl

end Draft

namespace Writer

theorem encode_run (config : Config) (calls : List Call) :
    encode config (State.run calls) = encodeCalls config {} calls := by
  rw [encode, encodeCalls]
  cases hcreate : create config {} with
  | error error => rfl
  | ok writer =>
      have herror : writer.error? = none :=
        (Draft.Shows.create (.plain #[]) hcreate).1
      obtain ⟨state, error?⟩ := writer
      subst herror
      have hfinish : State.run [.finish] = State.finish := by
        simp [State.run, State.perform]
      simp only [bind, Except.bind, run_eq, State.run_append, hfinish]
      rfl

theorem create_bind (config : Config) (sink other : Sink) (outcome : Except Error α) :
    (create config sink >>= fun _ => outcome) = (create config other >>= fun _ => outcome) := by
  rw [create, create]
  cases config.validate with
  | error error => rfl
  | ok valid =>
      cases requireFeature config.writer .writer with
      | error error => rfl
      | ok enabled => rfl

theorem create_bind_ok {config : Config} (hvalid : config.Valid) (hwriter : config.writer = true)
    (sink : Sink) (outcome : Except Error α) :
    (create config sink >>= fun _ => outcome) = outcome := by
  rw [create, hvalid.validate, requireFeature_on hwriter]
  rfl

end Writer

/-- Writing a value in one framing is writing its encoding. -/
theorem Value.encode_framed {value : Value} {framing : Framing} (config : Config)
    (hframing : framing = .built →
      config.builder = true ∧ config.builderPageSize ≤ Builder.maxPage) (hfits : value.Fits) :
    value.encode config framing =
      (Writer.create config {} >>= fun _ =>
        value.encoding config.tagOptions config.writeRoom) := by
  have hspelled : value.Spelled (decide (framing = .built)) (value.calls framing) :=
    value.spelled_calls fun hbuilt => decide_eq_true hbuilt
  have hempty : (value.encoding config.tagOptions config.writeRoom).map
      ((Sink.bytes {}) ++ ·) = value.encoding config.tagOptions config.writeRoom := by
    cases value.encoding config.tagOptions config.writeRoom <;> rfl
  rw [Value.encode, ← run_calls, Writer.encode_run,
    Draft.encodeCalls_eq (.plain #[]),
    Draft.outcome_of_spelled (fun hbuilt => hframing (of_decide_eq_true hbuilt)) hfits hspelled,
    hempty]

theorem Value.encode_counted {value : Value} (config : Config) (hfits : value.Fits) :
    value.encode config .counted =
      (Writer.create config {} >>= fun _ =>
        value.encoding config.tagOptions config.writeRoom) :=
  value.encode_framed config (fun hbuilt => by cases hbuilt) hfits

/-- However a value is spelled, what comes out is what comes out with every count declared and
nothing flushed: the same bytes or the same error. -/
theorem Writer.encodeCalls_of_spelled {config : Config} {sink : Sink} {value : Value}
    {calls : List Call} (hpages : config.builderPageSize ≤ Builder.maxPage)
    (hfits : value.Fits) (hsink : sink.Reliable)
    (hspelled : value.Spelled config.builder (calls.filter fun call => !call.isFlush)) :
    encodeCalls config sink calls =
      (value.encode config .counted).map (sink.bytes ++ ·) := by
  rw [Draft.encodeCalls_eq hsink, ← Draft.outcome_unflushed,
    Draft.outcome_of_spelled (fun hbuilder => ⟨hbuilder, hpages⟩) hfits hspelled,
    Value.encode_counted config hfits, create_bind config {} sink]
  cases create config sink with
  | error error => rfl
  | ok writer => rfl

/-- A build that holds a counted map and another build, flushed inside, one byte at a time. -/
theorem Writer.encodeCalls_of_spelled_mixed :
    encodeCalls { bufferSize := 1, builderPageSize := 1 } { maxWrite? := some 1 }
        [.beginBuild .array, .flush, .tag (.map 1), .tag (.uint 1), .flush, .bin [7],
          .finishCompound .map, .beginBuild .array, .tag .nil, .completeBuild .array,
          .completeBuild .array] =
      .ok [0x92, 0x81, 0x01, 0xc4, 0x01, 0x07, 0x91, 0xc0] := by
  have hitem : (Value.array [.nil]).Spelled true
      [.beginBuild .array, .tag .nil, .completeBuild .array] :=
    .array .built (fun _ => rfl) (.cons .nil .nil)
  have hentry : (Value.map [(.uint 1, .bin [7])]).Spelled true
      [.tag (.map 1), .tag (.uint 1), .bin [7], .finishCompound .map] :=
    .map .counted (fun _ => rfl) (.cons (.uint 1) (.bin [7]) .nil)
  have hspelled : (Value.array [.map [(.uint 1, .bin [7])], .array [.nil]]).Spelled true
      [.beginBuild .array, .tag (.map 1), .tag (.uint 1), .bin [7], .finishCompound .map,
        .beginBuild .array, .tag .nil, .completeBuild .array, .completeBuild .array] :=
    .array .built (fun _ => rfl) (.cons hentry (.cons hitem .nil))
  have hfits : (Value.array [.map [(.uint 1, .bin [7])], .array [.nil]]).Fits := by
    simp [Value.Fits, Value.FitsItems, Value.FitsEntries, UInt32.size]
  rw [encodeCalls_of_spelled (by decide) hfits ⟨rfl, rfl, by decide, by simp⟩ hspelled,
    Value.encode_counted _ hfits]
  rfl

end MessagePack
