import MessagePack.Proofs.Agreement
import MessagePack.Proofs.Discarding

/-!
The record of the keys that were read. Over a whole run of calls, whatever else is read between
them, it marks exactly the indices that were returned.
-/

namespace MessagePack

/-- A header that announces a string of this length. -/
def Header.OfString (options : TagOptions) (header content : Bytes) : Prop :=
  ∃ length, decode options header = .ok (.str length, header.length) ∧
    length.toNat = content.length

/-- The first of the keys with these bytes. -/
def FirstKey (keys : List String) (content : Bytes) (index : Nat) : Prop :=
  keys[index]?.map utf8 = some content ∧ ∀ earlier < index, keys[earlier]?.map utf8 ≠ some content

/-- What is made of a string that is read as a key. -/
def lookUp (keys : List String) (found : List Bool) (content : Bytes) :
    Except Error (Nat × List Bool) :=
  match (keys.map utf8).findIdx? (· = content) with
  | none => .error (.invalid .unknownKey)
  | some index =>
      if found[index]?.getD false then .error (.invalid .duplicateKey)
      else .ok (index, found.set index true)

/-- The record marks the indices that were returned, each of which is the first of its key. -/
structure Records (keys : List String) (indices : List Nat) (found : List Bool) : Prop where
  nodup : indices.Nodup
  marked : ∀ index, found[index]? = some true ↔ index ∈ indices
  first : ∀ index ∈ indices, ∃ content, FirstKey keys content index

variable {keys : List String} {indices : List Nat} {found marked : List Bool} {content : Bytes}
  {index : Nat}

theorem findIdx_eq_some_iff :
    (keys.map utf8).findIdx? (· = content) = some index ↔ FirstKey keys content index := by
  have hthere : ∀ n, keys[n]?.map utf8 = some content ↔
      ∃ hn : n < (keys.map utf8).length, (keys.map utf8)[n] = content := fun n => by
    rw [← List.getElem?_map, List.getElem?_eq_some_iff]
  simp only [List.findIdx?_eq_some_iff_getElem, FirstKey, hthere, decide_eq_true_eq, ne_eq]
  constructor
  · rintro ⟨hindex, hsame, hbefore⟩
    exact ⟨⟨hindex, hsame⟩, fun earlier hearlier hother => hbefore earlier hearlier hother.2⟩
  · rintro ⟨⟨hindex, hsame⟩, hbefore⟩
    exact ⟨hindex, hsame, fun earlier hearlier hother => hbefore earlier hearlier ⟨_, hother⟩⟩

theorem findIdx_eq_none_iff :
    (keys.map utf8).findIdx? (· = content) = none ↔ ∀ key ∈ keys, utf8 key ≠ content := by
  simp [List.findIdx?_eq_none_iff]

theorem FirstKey.lt_length (hfirst : FirstKey keys content index) : index < keys.length := by
  obtain ⟨key, hkey, -⟩ := Option.map_eq_some_iff.mp hfirst.1
  exact (List.getElem?_eq_some_iff.mp hkey).1

theorem lookUp_of_first (hfirst : FirstKey keys content index) :
    lookUp keys found content =
      if found[index]?.getD false then .error (.invalid .duplicateKey)
      else .ok (index, found.set index true) := by
  simp only [lookUp, findIdx_eq_some_iff.mpr hfirst]

theorem lookUp_eq_ok (hkey : lookUp keys found content = .ok (index, marked)) :
    FirstKey keys content index ∧ found[index]?.getD false = false ∧
      marked = found.set index true := by
  cases hfound : (keys.map utf8).findIdx? (· = content) with
  | none => simp only [lookUp, hfound] at hkey; cases hkey
  | some first =>
      have hfirst := findIdx_eq_some_iff.mp hfound
      rw [lookUp_of_first hfirst] at hkey
      split at hkey
      · cases hkey
      · next hnew =>
          cases hkey
          exact ⟨hfirst, Bool.not_eq_true _ ▸ hnew, rfl⟩

namespace Records

theorem nothing (keys : List String) (slots : Nat) :
    Records keys [] (List.replicate slots false) := by
  refine ⟨List.nodup_nil, fun index => ?_, fun index hindex => absurd hindex List.not_mem_nil⟩
  simp [List.getElem?_replicate]

theorem getD_iff (hrecords : Records keys indices found) :
    found[index]?.getD false = true ↔ index ∈ indices := by
  rw [← hrecords.marked]
  cases found[index]? <;> simp

/-- A key that is found is marked besides those that were. -/
theorem mark (hrecords : Records keys indices found) (hslots : keys.length ≤ found.length)
    (hkey : lookUp keys found content = .ok (index, marked)) :
    index ∉ indices ∧ Records keys (indices ++ [index]) marked := by
  obtain ⟨hfirst, hnew, rfl⟩ := lookUp_eq_ok hkey
  have hfresh : index ∉ indices := fun hold => by
    rw [hrecords.getD_iff.mpr hold] at hnew
    cases hnew
  have hindex : index < found.length := Nat.lt_of_lt_of_le hfirst.lt_length hslots
  refine ⟨hfresh, ?_, fun other => ?_, fun other hother => ?_⟩
  · refine List.nodup_append.mpr ⟨hrecords.nodup, List.pairwise_singleton _ _, ?_⟩
    intro other hold last hlast hsame
    rw [hsame, List.mem_singleton.mp hlast] at hold
    exact hfresh hold
  · rw [List.mem_append, List.mem_singleton, ← hrecords.marked, List.getElem?_set]
    by_cases hsame : index = other
    · subst hsame
      simp [hindex]
    · simp [hsame, Ne.symm hsame]
  · rcases List.mem_append.mp hother with hold | hlast
    · exact hrecords.first other hold
    · rw [List.mem_singleton.mp hlast]
      exact ⟨content, hfirst⟩

theorem new_iff (hrecords : Records keys indices found) :
    (lookUp keys found content).map Prod.fst = .ok index ↔
      FirstKey keys content index ∧ index ∉ indices := by
  rw [← hrecords.getD_iff]
  constructor
  · intro hindex
    obtain ⟨⟨first, marked⟩, hkey, rfl⟩ := map_eq_ok hindex
    obtain ⟨hfirst, hnew, -⟩ := lookUp_eq_ok hkey
    exact ⟨hfirst, Bool.not_eq_true _ ▸ hnew⟩
  · rintro ⟨hfirst, hnew⟩
    rw [lookUp_of_first hfirst, if_neg hnew]
    rfl

theorem unknown_iff : lookUp keys found content = .error (.invalid .unknownKey) ↔
    ∀ key ∈ keys, utf8 key ≠ content := by
  rw [← findIdx_eq_none_iff]
  constructor
  · intro hunknown
    cases hfound : (keys.map utf8).findIdx? (· = content) with
    | none => rfl
    | some first =>
        rw [lookUp_of_first (findIdx_eq_some_iff.mp hfound)] at hunknown
        split at hunknown <;> cases hunknown
  · intro hnone
    simp only [lookUp, hnone]

theorem duplicate_iff (hrecords : Records keys indices found) :
    lookUp keys found content = .error (.invalid .duplicateKey) ↔
      ∃ index ∈ indices, keys[index]?.map utf8 = some content := by
  constructor
  · intro hduplicate
    cases hfound : (keys.map utf8).findIdx? (· = content) with
    | none => simp only [lookUp, hfound] at hduplicate; cases hduplicate
    | some first =>
        have hfirst := findIdx_eq_some_iff.mp hfound
        rw [lookUp_of_first hfirst] at hduplicate
        split at hduplicate
        · next hold => exact ⟨first, hrecords.getD_iff.mp hold, hfirst.1⟩
        · cases hduplicate
  · rintro ⟨index, hold, hsame⟩
    obtain ⟨other, hfirst⟩ := hrecords.first index hold
    obtain rfl : other = content := Option.some.inj (hfirst.1.symm.trans hsame)
    rw [lookUp_of_first hfirst, if_pos (hrecords.getD_iff.mpr hold)]

end Records

/-! What is read of a byte string. -/

namespace Reader.State

variable {state after : State Bytes} {header rest : Bytes} {length : UInt32}

/-- A complete string, which may be copied, at the place where an element is accepted. -/
structure Stands (header content rest : Bytes) (state : State Bytes) : Prop where
  accepts : state.nesting.Accepts 1
  room : state.nesting.room = none
  announced : Header.OfString state.options header content
  input : state.input = header ++ (content ++ rest)
  limit : content.length ≤ state.maxAlloc

theorem expectStr_ok (hdecode : Header.decode state.options header = .ok (.str length, header.length))
    (hinput : state.input = header ++ rest) (haccepts : state.nesting.Accepts 1)
    (hroom : state.nesting.room = none) :
    expectStr state = (.ok length, { state with
      input := rest
      nesting := (state.nesting.charged 1).pushed { kind := .str, remaining := length.toNat } }) := by
  rw [expectStr, expect, Attempt.bind_of_ok (readTag_ok hdecode hinput haccepts hroom)]
  rfl

theorem expectStr_eq_ok (hroom : state.nesting.room = none)
    (hexpect : expectStr state = (.ok length, after)) :
    state.nesting.Accepts 1 ∧ ∃ header rest, state.input = header ++ rest ∧
      Header.decode state.options header = .ok (.str length, header.length) := by
  obtain ⟨tag, middle, hread, hview⟩ := Attempt.bind_eq_ok hexpect
  have haccepts := accepts_of_readTag hread
  obtain ⟨header, rest, hinput, hdecode, -⟩ := readTag_eq_ok haccepts hroom hread
  cases tag <;> cases hview
  exact ⟨haccepts, header, rest, hinput, hdecode⟩

/-- Whether it is copied or skipped, the string is compared with every name and left. -/
theorem expectName_eq (names : List String) (hstands : state.Stands header content rest) :
    expectName names state = (match (names.map utf8).findIdx? (· = content) with
      | some index => .ok index
      | none => .error (.invalid .unknownKey), state.passed 1 rest) := by
  obtain ⟨length, hdecode, hlength⟩ := hstands.announced
  have hstr := expectStr_ok hdecode hstands.input hstands.accepts hstands.room
  rw [expectName, Attempt.bind_of_ok hstr]
  simp only [hlength]
  by_cases hany : (names.map utf8).any (·.length = content.length) = true
  · have hcopy : copyBytes content.length { state with
        input := content ++ rest
        nesting := (state.nesting.charged 1).pushed { kind := .str, remaining := content.length } } =
        (.ok content, _) := copyBytes_ok rfl hstands.limit rfl rfl
    rw [if_pos hany, Attempt.bind_of_ok hcopy]
    cases (names.map utf8).findIdx? (· = content) with
    | none => exact Attempt.bind_of_ok (leave_ok rfl)
    | some index => exact Attempt.bind_of_ok (leave_ok rfl)
  · -- None of them is as long as the string, so that none is equal to it.
    have hnone : (names.map utf8).findIdx? (· = content) = none := by
      rw [List.findIdx?_eq_none_iff]
      intro name hname
      refine decide_eq_false fun hsame => hany (List.any_eq_true.mpr ⟨name, hname, ?_⟩)
      rw [hsame]
      exact decide_eq_true rfl
    rw [if_neg hany, Attempt.bind_of_ok (skipBytes_ok rfl (Nesting.bytes_pushed rfl)), hnone]
    exact Attempt.bind_of_ok (leave_ok rfl)

theorem copyBytes_limit {n : Nat} (hcopy : copyBytes n state = (.ok content, after)) :
    n ≤ state.maxAlloc := by
  refine Nat.le_of_not_lt fun hlong => ?_
  rw [copyBytes, Attempt.get_bind] at hcopy
  simp only [if_pos hlong] at hcopy
  cases hcopy

/-- Only for a string that was copied is a name found. -/
theorem expectName_eq_ok {ι : Type} [ByteInput ι] {names : List String} {before last : State ι}
    (hname : expectName names before = (.ok index, last)) :
    ∃ length content, ∃ (opened copied : State ι), expectStr before = (.ok length, opened) ∧
      copyBytes length.toNat opened = (.ok content, copied) ∧ FirstKey names content index := by
  obtain ⟨length, opened, hstr, hrest⟩ := Attempt.bind_eq_ok hname
  split at hrest
  · obtain ⟨content, copied, hcopy, hrest⟩ := Attempt.bind_eq_ok hrest
    obtain ⟨index?, _, hsought, hrest⟩ := Attempt.bind_eq_ok hrest
    obtain ⟨_, _, -, hlast⟩ := Attempt.bind_eq_ok hrest
    have hfirst : (names.map utf8).findIdx? (· = content) = index? := by
      cases hsought
      rfl
    cases index? with
    | none => cases hlast
    | some first =>
        cases hlast
        exact ⟨length, content, opened, copied, hstr, hcopy, findIdx_eq_some_iff.mp hfirst⟩
  · -- A string that is skipped is none of the names.
    obtain ⟨_, _, -, hrest⟩ := Attempt.bind_eq_ok hrest
    obtain ⟨_, _, hnone, hrest⟩ := Attempt.bind_eq_ok hrest
    obtain ⟨_, _, -, hthrow⟩ := Attempt.bind_eq_ok hrest
    cases hnone
    cases hthrow

theorem stands_of_expectName {names : List String} (hroom : state.nesting.room = none)
    (hname : expectName names state = (.ok index, after)) :
    ∃ header content rest, state.Stands header content rest := by
  obtain ⟨length, content, opened, copied, hstr, hcopy, -⟩ := expectName_eq_ok hname
  obtain ⟨haccepts, header, rest, hinput, hdecode⟩ := expectStr_eq_ok hroom hstr
  rw [expectStr_ok hdecode hinput haccepts hroom] at hstr
  cases hstr
  obtain ⟨hlength, rest, hmore, -⟩ := copyBytes_eq_ok rfl rfl hcopy
  have hlimit := copyBytes_limit hcopy
  rw [← hlength] at hlimit
  exact ⟨header, content, rest, haccepts, hroom, ⟨length, hdecode, hlength.symm⟩,
    hinput.trans (congrArg (header ++ ·) hmore), hlimit⟩

theorem expectKey_eq (hslots : keys.length ≤ found.length)
    (hstands : state.Stands header content rest) :
    expectKey keys found state = (lookUp keys found content, state.passed 1 rest) := by
  have hname := expectName_eq keys hstands
  rw [expectKey, if_neg (Nat.not_lt.mpr hslots)]
  cases hindex : (keys.map utf8).findIdx? (· = content) with
  | none =>
      rw [hindex] at hname
      simp only [lookUp, hindex]
      exact Attempt.bind_of_error hname
  | some index =>
      rw [hindex] at hname
      rw [lookUp_of_first (findIdx_eq_some_iff.mp hindex)]
      refine (Attempt.bind_of_ok hname).trans ?_
      split <;> rfl

theorem expectKey_short {ι : Type} [ByteInput ι] (hshort : found.length < keys.length)
    (state : State ι) : expectKey keys found state =
      (.error (.usage (.keySlotsTooShort keys.length found.length)), state) := by
  rw [expectKey, if_pos hshort]
  rfl

theorem stands_of_expectKey {result : Nat × List Bool} (hroom : state.nesting.room = none)
    (hkey : expectKey keys found state = (.ok result, after)) :
    keys.length ≤ found.length ∧ ∃ header content rest, state.Stands header content rest := by
  by_cases hshort : found.length < keys.length
  · rw [expectKey_short hshort] at hkey
    cases hkey
  · rw [expectKey, if_neg hshort] at hkey
    obtain ⟨index, middle, hname, -⟩ := Attempt.bind_eq_ok hkey
    exact ⟨Nat.le_of_not_lt hshort, stands_of_expectName hroom hname⟩

end Reader.State

namespace Reader

/-- A reader, and the record of the keys that were read from it. -/
structure Keyed where
  reader : Reader Buffered
  found : List Bool

namespace Keyed

/-- The record changes with a key that is found. -/
def expect (keys : List String) : Attempt Keyed Nat := fun keyed =>
  match Latch.call (State.expectKey keys keyed.found) keyed.reader with
  | (.ok (index, found), reader) => (.ok index, { reader, found })
  | (.error error, reader) => (.error error, { keyed with reader })

/-- Calls for keys, and between them others that succeed; with the indices that were returned. -/
inductive Run (keys : List String) (start : Keyed) : Keyed → List Nat → Prop
  | start : Run keys start start []
  | read {keyed : Keyed} {indices : List Nat} {call : Call} {reply : Reply}
      {after : Reader Buffered} (hrun : Run keys start keyed indices)
      (hread : perform call keyed.reader = (.ok reply, after)) :
      Run keys start { keyed with reader := after } indices
  | found {keyed after : Keyed} {indices : List Nat} {index : Nat}
      (hrun : Run keys start keyed indices) (hkey : expect keys keyed = (.ok index, after)) :
      Run keys start after (indices ++ [index])
  | refused {keyed after : Keyed} {indices : List Nat} {error : Error}
      (hrun : Run keys start keyed indices) (hkey : expect keys keyed = (.error error, after)) :
      Run keys start after indices

variable {keyed after start : Keyed}

theorem expect_eq_ok (hkey : expect keys keyed = (.ok index, after)) :
    Latch.call (State.expectKey keys keyed.found) keyed.reader =
      (.ok (index, after.found), after.reader) := by
  unfold expect at hkey
  split at hkey
  · next hcall => cases hkey; exact hcall
  · cases hkey

theorem expect_eq_error {error : Error} (hkey : expect keys keyed = (.error error, after)) :
    Latch.call (State.expectKey keys keyed.found) keyed.reader = (.error error, after.reader) ∧
      after.found = keyed.found := by
  unfold expect at hkey
  split at hkey
  · cases hkey
  · next hcall => cases hkey; exact ⟨hcall, rfl⟩

theorem expect_of_call {outcome : Except Error (Nat × List Bool)} {last : Reader Buffered}
    (hcall : Latch.call (State.expectKey keys keyed.found) keyed.reader = (outcome, last)) :
    (expect keys keyed).1 = outcome.map Prod.fst ∧ (expect keys keyed).2.reader = last := by
  rw [expect, hcall]
  cases outcome <;> exact ⟨rfl, rfl⟩

theorem expect_reader (keys : List String) (keyed : Keyed) :
    (expect keys keyed).2.reader = (perform (.expectKey keys keyed.found) keyed.reader).2 := by
  have hperform : perform (.expectKey keys keyed.found) keyed.reader =
      (Latch.call (State.expectKey keys keyed.found) >>= fun result =>
        Latch.call (pure (.key result.1 result.2))) keyed.reader := Latch.call_bind _ _ _
  rcases hcall : Latch.call (State.expectKey keys keyed.found) keyed.reader with ⟨outcome, last⟩
  rw [hperform, (expect_of_call hcall).2]
  cases outcome with
  | ok result =>
      obtain ⟨-, hfree, -⟩ := Latch.call_eq_ok hcall
      obtain ⟨state, error?⟩ := last
      obtain rfl : error? = none := hfree
      rw [Attempt.bind_of_ok hcall]
      rfl
  | error error => rw [Attempt.bind_of_error hcall]

end Keyed

variable {config : Config} {source : Source} {reader : Reader Buffered} {keyed after start : Keyed}
  {header rest : Bytes} {nesting : Nesting} {slots : Nat}

/-- A complete string is next, where one more element is taken, and it may be copied. -/
structure Faces (config : Config) (header content rest : Bytes) (nesting : Nesting)
    (reader : Reader Buffered) : Prop where
  free : reader.error? = none
  takes : reader.state.nesting.TakesOne nesting
  input : reader.unread = header ++ (content ++ rest)
  announced : Header.OfString config.tagOptions header content
  limit : content.length ≤ config.maxAlloc

theorem Reached.maxAlloc (hsteady : source.Steady) (hreached : Reached config source reader) :
    reader.state.maxAlloc = config.maxAlloc := by
  obtain ⟨plain, hfollows, hsettings⟩ := hreached.stands hsteady
  exact hfollows.state.maxAlloc.trans (congrArg (fun settings => settings.2.1) hsettings)

/-- What is made of a string that is next. -/
theorem Faces.expect (hsteady : source.Steady) (hdynamic : config.dynamicAlloc = true)
    (hreached : Reached config source keyed.reader) (hslots : keys.length ≤ keyed.found.length)
    (hfaces : keyed.reader.Faces config header content rest nesting) :
    (Keyed.expect keys keyed).1 = (lookUp keys keyed.found content).map Prod.fst ∧
      (Keyed.expect keys keyed).2.reader.unread = rest ∧
      (Keyed.expect keys keyed).2.reader.state.nesting = nesting := by
  obtain ⟨plain, hfollows, hnone, hoptions, hroom⟩ :=
    hreached.follows hsteady hdynamic hfaces.free
  have hnesting : keyed.reader.state.nesting = plain.state.nesting := hfollows.state.nesting
  have hstands : plain.state.Stands header content rest := by
    refine ⟨hnesting ▸ hfaces.takes.accepts, hroom, hoptions ▸ hfaces.announced, ?_, ?_⟩
    · rw [← hfaces.input]
      exact hfollows.state.input.content.symm
    · rw [← hfollows.state.maxAlloc, hreached.maxAlloc hsteady]
      exact hfaces.limit
  obtain ⟨before, error?⟩ := plain
  obtain rfl : error? = none := hnone
  have hplain : State.expectKey keys keyed.found before =
      (lookUp keys keyed.found content, before.passed 1 rest) := State.expectKey_eq hslots hstands
  rcases hcall : Latch.call (State.expectKey keys keyed.found) keyed.reader with ⟨outcome, last⟩
  obtain ⟨other, hother, hlast⟩ := (Latch.call_agrees
    (State.expectKey_agrees Buffered.simulates keys keyed.found)).run hfollows hcall
  have houtcome := Latch.call_result (State.expectKey keys keyed.found) before
  have hstate := Latch.call_state (State.expectKey keys keyed.found) before
  rw [hother, hplain] at houtcome hstate
  obtain ⟨hresult, hreader⟩ := Keyed.expect_of_call hcall
  rw [hresult, hreader, show outcome = _ from houtcome]
  refine ⟨rfl, hlast.state.input.content.trans (congrArg State.input hstate), ?_⟩
  rw [hlast.state.nesting, hstate, State.passed, ← hnesting]
  exact hfaces.takes.charged

/-- Where a key is found, a complete string was next. -/
theorem Keyed.expect_string (hsteady : source.Steady) (hdynamic : config.dynamicAlloc = true)
    (hreached : Reached config source keyed.reader)
    (hkey : Keyed.expect keys keyed = (.ok index, after)) :
    keys.length ≤ keyed.found.length ∧ ∃ header content rest,
      keyed.reader.unread = header ++ (content ++ rest) ∧
      Header.OfString config.tagOptions header content ∧ after.reader.unread = rest ∧
      lookUp keys keyed.found content = .ok (index, after.found) := by
  have hcall := expect_eq_ok hkey
  obtain ⟨hfree, -, -⟩ := Latch.call_eq_ok hcall
  obtain ⟨plain, hfollows, -, hoptions, hroom⟩ := hreached.follows hsteady hdynamic hfree
  obtain ⟨last, hplain, hlast⟩ := (Latch.call_agrees (State.expectKey_agrees Buffered.simulates keys
    keyed.found)).run hfollows hcall
  obtain ⟨-, -, hstate⟩ := Latch.call_eq_ok hplain
  obtain ⟨hslots, header, content, rest, hstands⟩ := State.stands_of_expectKey hroom hstate
  rw [State.expectKey_eq hslots hstands] at hstate
  obtain ⟨hfound, hpassed⟩ := Prod.mk.inj hstate
  refine ⟨hslots, header, content, rest, ?_, hoptions ▸ hstands.announced, ?_, hfound⟩
  · rw [← hstands.input]
    exact hfollows.state.input.content
  · exact hlast.state.input.content.trans (congrArg State.input hpassed.symm)

namespace Keyed.Run

theorem reached (hreached : Reached config source start.reader)
    (hrun : Run keys start keyed indices) : Reached config source keyed.reader := by
  induction hrun with
  | start => exact hreached
  | @read _ _ call reply after hrun hread ih =>
      have hreader := ih.called call
      rw [hread] at hreader
      exact hreader
  | found hrun hkey ih | refused hrun hkey ih =>
      have hreader := expect_reader keys _ ▸ ih.called (.expectKey keys _)
      rw [hkey] at hreader
      exact hreader

/-- The indices that are returned are marked, and nothing else is. -/
theorem records (hsteady : source.Steady) (hdynamic : config.dynamicAlloc = true)
    (hreached : Reached config source reader)
    (hrun : Run keys { reader, found := List.replicate slots false } keyed indices) :
    Records keys indices keyed.found ∧ keyed.found.length = slots := by
  induction hrun with
  | start => exact ⟨.nothing keys slots, List.length_replicate⟩
  | read hrun hread ih => exact ih
  | found hrun hkey ih =>
      obtain ⟨hrecords, hlength⟩ := ih
      obtain ⟨hslots, _, _, _, -, -, -, hfound⟩ :=
        expect_string hsteady hdynamic (hrun.reached hreached) hkey
      refine ⟨(hrecords.mark hslots hfound).2, ?_⟩
      rw [(lookUp_eq_ok hfound).2.2, List.length_set, hlength]
  | refused hrun hkey ih =>
      rw [(expect_eq_error hkey).2]
      exact ih

end Keyed.Run

theorem Keyed.expect_short (hshort : keyed.found.length < keys.length)
    (hfree : keyed.reader.error? = none) :
    ∃ after, Keyed.expect keys keyed =
        (.error (.usage (.keySlotsTooShort keys.length keyed.found.length)), after) ∧
      after.reader.state = keyed.reader.state := by
  obtain ⟨⟨state, error?⟩, found⟩ := keyed
  obtain rfl : error? = none := hfree
  have hcall := Latch.call_of_error (State.expectKey_short hshort state)
  exact ⟨{ reader := { state, error? := some _ }, found }, by rw [expect, hcall], rfl⟩

/-- The record is exact throughout a run, and so is what a call for a key makes of the string that
is next. -/
theorem keys_recorded (hsteady : source.Steady) (hdynamic : config.dynamicAlloc = true)
    (hreached : Reached config source reader)
    (hrun : Keyed.Run keys { reader, found := List.replicate slots false } keyed indices) :
    Records keys indices keyed.found ∧ keyed.found.length = slots ∧
    (∀ index after, Keyed.expect keys keyed = (.ok index, after) →
      index ∉ indices ∧ ∃ header content rest,
        keyed.reader.unread = header ++ (content ++ rest) ∧
        Header.OfString config.tagOptions header content ∧ after.reader.unread = rest ∧
        FirstKey keys content index) ∧
    (∀ error after, Keyed.expect keys keyed = (.error error, after) →
      after.found = keyed.found) ∧
    (keys.length ≤ slots → ∀ header content rest nesting,
      keyed.reader.Faces config header content rest nesting →
        (Keyed.expect keys keyed).2.reader.unread = rest ∧
        (Keyed.expect keys keyed).2.reader.state.nesting = nesting ∧
        ((Keyed.expect keys keyed).1 = .error (.invalid .unknownKey) ↔
          ∀ key ∈ keys, utf8 key ≠ content) ∧
        ((Keyed.expect keys keyed).1 = .error (.invalid .duplicateKey) ↔
          ∃ index ∈ indices, keys[index]?.map utf8 = some content) ∧
        ∀ index, (Keyed.expect keys keyed).1 = .ok index ↔
          FirstKey keys content index ∧ index ∉ indices) ∧
    (keys.length ≤ slots → ∀ (state after : State Buffered) (index : Nat),
      State.expectName keys state = (.ok index, after) → index < keyed.found.length) ∧
    (slots < keys.length → keyed.reader.error? = none →
      ∃ after, Keyed.expect keys keyed =
          (.error (.usage (.keySlotsTooShort keys.length slots)), after) ∧
        after.reader.state = keyed.reader.state) := by
  obtain ⟨hrecords, rfl⟩ := hrun.records hsteady hdynamic hreached
  have hnow := hrun.reached hreached
  refine ⟨hrecords, rfl, fun index after hkey => ?_,
    fun error after hkey => (Keyed.expect_eq_error hkey).2,
    fun hslots header content rest nesting hfaces => ?_,
    fun hslots state after index hname => ?_,
    fun hshort hfree => Keyed.expect_short hshort hfree⟩
  · obtain ⟨hslots, header, content, rest, hinput, hheader, hrest, hfound⟩ :=
      Keyed.expect_string hsteady hdynamic hnow hkey
    exact ⟨(hrecords.mark hslots hfound).1, header, content, rest, hinput, hheader, hrest,
      (lookUp_eq_ok hfound).1⟩
  · obtain ⟨hresult, hrest, hnesting⟩ := hfaces.expect hsteady hdynamic hnow hslots
    rw [hresult]
    refine ⟨hrest, hnesting, ?_, ?_, fun index => ?_⟩
    · rw [map_eq_error_iff, Records.unknown_iff]
    · rw [map_eq_error_iff, hrecords.duplicate_iff]
    · exact hrecords.new_iff
  · obtain ⟨_, _, _, _, -, -, hfirst⟩ := State.expectName_eq_ok hname
    exact Nat.lt_of_lt_of_le hfirst.lt_length hslots

/-- The same key twice, with an empty key and one key listed twice. -/
theorem keys_recorded_twice :
    ∃ (reader : Reader Buffered) (keyed : Keyed),
      create { bufferSize := 1 } { deliveries := [.chunk [0xa1, 0x61, 0xa1, 0x61, 0xff]] } =
        .ok reader ∧
      Keyed.Run ["", "a", "a"] { reader, found := List.replicate 4 false } keyed [1] ∧
      (Keyed.expect ["", "a", "a"] keyed).1 = .error (.invalid .duplicateKey) ∧
      (Keyed.expect ["", "a", "a"] keyed).2.reader.unread = [0xff] := by
  have hsteady : Source.Steady { deliveries := [.chunk [0xa1, 0x61, 0xa1, 0x61, 0xff]] } := by
    decide
  have hfirst : FirstKey ["", "a", "a"] [0x61] 1 := by
    refine ⟨by decide +kernel, fun earlier hearlier => ?_⟩
    obtain rfl : earlier = 0 := Nat.lt_one_iff.mp hearlier
    decide +kernel
  have hstring : Header.OfString {} [0xa1] [0x61] := ⟨1, rfl, rfl⟩
  obtain ⟨state, hcreate, halike⟩ := create_alike (show Config.Valid { bufferSize := 1 } by decide)
    rfl hsteady
  have hcreated := Reached.created hcreate
  have hfaces : Faces { bufferSize := 1 } [0xa1] [0x61] [0xa1, 0x61, 0xff] {} { state } :=
    ⟨rfl, halike.nesting ▸ .outermost rfl, halike.input.content, hstring, by decide⟩
  have hstart : Keyed.Run ["", "a", "a"]
      { reader := { state }, found := List.replicate 4 false } _ [] := .start
  obtain ⟨-, -, -, -, hnext, -⟩ := keys_recorded hsteady rfl hcreated hstart
  obtain ⟨hunread, hnesting, -, -, hfound⟩ := hnext (by decide) _ _ _ _ hfaces
  have hkey : Keyed.expect ["", "a", "a"] _ = (.ok 1, _) :=
    Prod.ext ((hfound 1).mpr ⟨hfirst, List.not_mem_nil⟩) rfl
  have hrun := hstart.found hkey
  have hagain : Faces { bufferSize := 1 } [0xa1] [0x61] [0xff] {} _ :=
    ⟨(Latch.call_eq_ok (Keyed.expect_eq_ok hkey)).2.1, hnesting.symm ▸ .outermost rfl, hunread,
      hstring, by decide⟩
  obtain ⟨-, -, -, -, hlast, -⟩ := keys_recorded hsteady rfl hcreated hrun
  obtain ⟨hrest, -, -, hduplicate, -⟩ := hlast (by decide) _ _ _ _ hagain
  exact ⟨{ state }, _, hcreate, hrun, hduplicate.mpr ⟨1, .head _, hfirst.1⟩, hrest⟩

end Reader
end MessagePack
